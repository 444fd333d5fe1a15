/- module: RustExperiments/Http/CreateJson
   digest: How the script of the JSON page turns a value into markup. -/

import RustExperiments.Lib.JsNumber

set_option autoImplicit false
set_option relaxedAutoImplicit false

namespace RustExperiments.Http

open RustExperiments.Lib

/-- A value of the script, the fields of an object in the order of `Object.keys`. -/
inductive Value where
  | null
  | bool (b : Bool)
  | number (n : JsNumber)
  | string (s : String)
  | array (items : List Value)
  | object (fields : List (String × Value))

/-- `in` throws a `TypeError` at a primitive on its right. What links have from the language, the
length of an array and what is inherited, is not followed. -/
inductive Stop where
  | typeError
  | builtin
  deriving DecidableEq, Repr

section EscapeHtml

/-- `str.replace(/c/g, text)` -/
def replaceAll (c : Char) (text str : List Char) : List Char :=
  str.flatMap fun x => if x = c then text else [x]

def escapeHtml (str : List Char) : List Char :=
  let str := replaceAll '&' "&amp;".toList str
  let str := replaceAll '<' "&lt;".toList str
  let str := replaceAll '>' "&gt;".toList str
  let str := replaceAll '"' "&quot;".toList str
  replaceAll '\'' "&#039;".toList str

end EscapeHtml

section Links

def Value.truthy : Value → Bool
  | .null => false
  | .bool b => b
  | .number n => n ≠ .zero
  | .string s => s ≠ ""
  | .array _ => true
  | .object _ => true

def objectPrototype : List String :=
  ["__defineGetter__", "__defineSetter__", "__lookupGetter__", "__lookupSetter__", "__proto__",
    "constructor", "hasOwnProperty", "isPrototypeOf", "propertyIsEnumerable", "toLocaleString",
    "toString", "valueOf"]

def arrayPrototype : List String :=
  ["at", "concat", "copyWithin", "entries", "every", "fill", "filter", "find", "findIndex",
    "findLast", "findLastIndex", "flat", "flatMap", "forEach", "includes", "indexOf", "join",
    "keys", "lastIndexOf", "length", "map", "pop", "push", "reduce", "reduceRight", "reverse",
    "shift", "slice", "some", "sort", "splice", "toReversed", "toSorted", "toSpliced", "unshift",
    "values", "with"]

/-- A property that is not the value's own. -/
def inherited (names : List String) (key : String) : Except Stop (Option Value) :=
  if key ∈ names then .error .builtin else .ok none

/-- `key in links`, with the value that is found. -/
def Value.find (links : Value) (key : String) : Except Stop (Option Value) :=
  match links with
  | .object fields =>
    match fields.lookup key with
    | some value => .ok (some value)
    | none => inherited objectPrototype key
  | .array items =>
    match items.zipIdx.find? fun item => toString item.2 = key with
    | some (item, _) => .ok (some item)
    | none => inherited (arrayPrototype ++ objectPrototype) key
  | _ => .error .typeError

/-- `links && key in links` -/
def findLink (links : Option Value) (key : String) : Except Stop (Option Value) :=
  match links with
  | some links => if links.truthy then links.find key else .ok none
  | none => .ok none

/-- `value && value._links`, unless it is falsy. -/
def Value.ownLinks : Value → Option Value
  | .object fields => (fields.lookup "_links").filter Value.truthy
  | _ => none

def innerLinks (value : Value) (links : Option Value) (i : String) :
    Except Stop (Option Value) :=
  match value.ownLinks with
  | some own => .ok (some own)
  | none => findLink links i

end Links

section CreateJson

def keyMarkup (links : Option Value) (key : String) : Except Stop (List Char) := do
  let span := "<span class=\"key\">".toList ++ escapeHtml key.toList ++ "</span>".toList
  match ← findLink links key with
  | some (.string link) =>
    .ok ("<a href='".toList ++ link.toList ++ "'>".toList ++ span ++ "</a>".toList)
  | _ => .ok span

def comma (last : Bool) : List Char := if last then [] else [',']

mutual

def createJson (links : Option Value) (indent : List Char) : Value → Except Stop (List Char)
  | .array items => do
    let s ← createItems (.array items) links indent 0 items
    .ok ("[\n".toList ++ s ++ indent ++ "]".toList)
  | .null => .ok "<span class=\"null\">null</span>".toList
  | .string value =>
    .ok ("<span class=\"string\">\"".toList ++ escapeHtml value.toList ++ "\"</span>".toList)
  | .bool _ =>
    -- `type ? 'true' : 'false'`, where `type` is the non-empty string 'boolean'
    .ok ("<span class=\"boolean\">".toList ++ "true".toList ++ "</span>".toList)
  | .number value => .ok ("<span class=\"number\">".toList ++ value.toText ++ "</span>".toList)
  | .object fields => do
    let s ← createFields links indent fields
    .ok ("\x7b\n".toList ++ s ++ indent ++ "\x7d".toList)

/-- The loop over `value.length`, from index `i` on. -/
def createItems (value : Value) (links : Option Value) (indent : List Char) (i : ℕ) :
    List Value → Except Stop (List Char)
  | [] => .ok []
  | item :: rest => do
    let inner ← innerLinks value links (toString i)
    let text ← createJson inner (indent ++ "  ".toList) item
    let s ← createItems value links indent (i + 1) rest
    .ok (indent ++ "  ".toList ++ text ++ comma rest.isEmpty ++ "\n".toList ++ s)

/-- The loop over the keys; one that the filter drops is passed over. -/
def createFields (links : Option Value) (indent : List Char) :
    List (String × Value) → Except Stop (List Char)
  | [] => .ok []
  | (key, value) :: rest =>
    if key = "_links" then createFields links indent rest
    else do
      let keyText ← keyMarkup links key
      let inner ← innerLinks value links key
      let text ← createJson inner (indent ++ "  ".toList) value
      let s ← createFields links indent rest
      .ok (indent ++ "  ".toList ++ keyText ++ ": ".toList ++ text ++
        comma (rest.all fun field => field.1 = "_links") ++ "\n".toList ++ s)

end

theorem createJson_array (links : Option Value) (indent : List Char) (items : List Value) :
    createJson links indent (.array items) = (do
      let s ← createItems (.array items) links indent 0 items
      .ok ("[\n".toList ++ s ++ indent ++ "]".toList)) := rfl

theorem createJson_object (links : Option Value) (indent : List Char)
    (fields : List (String × Value)) : createJson links indent (.object fields) = (do
      let s ← createFields links indent fields
      .ok ("\x7b\n".toList ++ s ++ indent ++ "\x7d".toList)) := rfl

theorem createItems_cons (value : Value) (links : Option Value) (indent : List Char) (i : ℕ)
    (item : Value) (rest : List Value) : createItems value links indent i (item :: rest) = (do
      let inner ← innerLinks value links (toString i)
      let text ← createJson inner (indent ++ "  ".toList) item
      let s ← createItems value links indent (i + 1) rest
      .ok (indent ++ "  ".toList ++ text ++ comma rest.isEmpty ++ "\n".toList ++ s)) := rfl

theorem createFields_cons (links : Option Value) (indent : List Char) {key : String}
    (h : key ≠ "_links") (value : Value) (rest : List (String × Value)) :
    createFields links indent ((key, value) :: rest) = (do
      let keyText ← keyMarkup links key
      let inner ← innerLinks value links key
      let text ← createJson inner (indent ++ "  ".toList) value
      let s ← createFields links indent rest
      .ok (indent ++ "  ".toList ++ keyText ++ ": ".toList ++ text ++
        comma (rest.all fun field => field.1 = "_links") ++ "\n".toList ++ s)) := if_neg h

end CreateJson

end RustExperiments.Http
