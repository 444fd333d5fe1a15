/- module: RustExperiments/Http/JsonHtml
   digest: The page that shows a JSON text, and where an HTML parser sees its script element end. -/

import RustExperiments.Lib.ScriptPieces

set_option autoImplicit false
set_option relaxedAutoImplicit false

namespace RustExperiments.Http

open RustExperiments.Lib.ScriptData

section Template

/-- `json.html` up to its first script element. -/
def pageHeadLines : List String :=
  ["<!DOCTYPE html>",
    "<html lang=\"en\">",
    "",
    "<head>",
    "  <meta charset=\"UTF-8\">",
    "  <meta name=\"viewport\" content=\"width=device-width, initial-scale=1.0\">",
    "",
    "  <!-- Can be changed with `._title`. -->",
    "  <title>JSON</title>",
    "",
    "  <!-- Can be changed with `._favicon`, orange 1x1 by default. -->",
    "  <link href=\"data:image/x-icon;base64,iVBORw0KGgoAAAANSUhEUgAAAAEAAAABCAIAAACQd1PeAAAADElEQVR4nGP4v5QBAARLAaU/Dnq2AAAAAElFTkSuQmCC\" rel=\"icon\" type=\"image/x-icon\" />",
    "",
    "  <style>",
    "    body \x7b",
    "      font-family: Arial, sans-serif;",
    "      background-color: #282c34;",
    "      color: white;",
    "      padding: 1px;",
    "    \x7d",
    "    pre \x7b",
    "      white-space: pre;",
    "      overflow-x: auto;",
    "      background: #1e1e1e;",
    "      padding: 15px;",
    "      border-radius: 5px;",
    "      overflow-x: auto;",
    "    \x7d",
    "    .string \x7b",
    "      color: #ce9178;",
    "    \x7d",
    "    .number \x7b",
    "      color: #b5cea8;",
    "    \x7d",
    "    .boolean \x7b",
    "      color: #569cd6;",
    "    \x7d",
    "    .null \x7b",
    "      color: #569cd6;",
    "    \x7d",
    "    .key \x7b",
    "      color: #9cdcfe;",
    "    \x7d",
    "    a \x7b",
    "      color: #9cdcfe;",
    "    \x7d",
    "    a:hover \x7b",
    "      text-decoration: underline;",
    "    \x7d",
    "  </style>",
    "</head>",
    "",
    "<body>",
    "  <script>"]

def scriptHeadLines : List String :=
  ["    const escapeHtml = (str) => \x7b",
    "      return str",
    "        .replace(/&/g, \"&amp;\")",
    "        .replace(/</g, \"&lt;\")",
    "        .replace(/>/g, \"&gt;\")",
    "        .replace(/\"/g, \"&quot;\")",
    "        .replace(/'/g, \"&#039;\");",
    "    \x7d;",
    "",
    "    const innerLinks = (value, links, i) => \x7b",
    "      // NOTE(dkorolev): Support both top-level `_links` and inner-level `._links`, see the example.",
    "      if (value && value._links) \x7b",
    "        return value._links;",
    "      \x7d else if (links && i in links) \x7b",
    "        return links[i];",
    "      \x7d else \x7b",
    "        return undefined;",
    "      \x7d",
    "    \x7d;",
    "",
    "    const createJson = (value, links, indent) => \x7b",
    "      if (Array.isArray(value)) \x7b",
    "        let s = `[\\n`;",
    "        for (let i = 0; i < value.length; ++i) \x7b",
    "          s += `$\x7bindent\x7d  $\x7bcreateJson(value[i], innerLinks(value, links, i), indent + '  ')\x7d$\x7bi + 1 == value.length ? '' : ','\x7d\\n`;",
    "        \x7d",
    "        s += `$\x7bindent\x7d]`;",
    "        return s;",
    "      \x7d else if (value === null) \x7b",
    "        return `<span class=\"null\">null</span>`;",
    "      \x7d else \x7b",
    "        const type = typeof value;",
    "        if (type === 'string') \x7b",
    "          return `<span class=\"string\">\"$\x7bescapeHtml(value)\x7d\"</span>`;",
    "        \x7d else if (type === 'boolean') \x7b",
    "          return `<span class=\"boolean\">$\x7btype ? 'true' : 'false'\x7d</span>`;",
    "        \x7d else if (type === 'number') \x7b",
    "          return `<span class=\"number\">$\x7bvalue\x7d</span>`;",
    "        \x7d else if (type === 'object') \x7b",
    "          let s = `\x7b\\n`;",
    "          let k = Object.keys(value).filter(e => e != '_links');",
    "          for (let i = 0; i < k.length; ++i) \x7b",
    "            if (links && k[i] in links && typeof links[k[i]] === 'string') \x7b",
    "              s += `$\x7bindent\x7d  <a href='$\x7blinks[k[i]]\x7d'><span class=\"key\">$\x7bescapeHtml(k[i])\x7d</span></a>: $\x7bcreateJson(value[k[i]], innerLinks(value[k[i]], links, k[i]), indent + '  ')\x7d$\x7bi + 1 == k.length ? '' : ','\x7d\\n`;",
    "            \x7d else \x7b",
    "              s += `$\x7bindent\x7d  <span class=\"key\">$\x7bescapeHtml(k[i])\x7d</span>: $\x7bcreateJson(value[k[i]], innerLinks(value[k[i]], links, k[i]), indent + '  ')\x7d$\x7bi + 1 == k.length ? '' : ','\x7d\\n`;",
    "            \x7d",
    "          \x7d",
    "          s += `$\x7bindent\x7d\x7d`;",
    "          return s;",
    "        \x7d",
    "      \x7d",
    "    \x7d;"]

def pageTailLines : List String :=
  ["  <pre id=\"json-output\"></pre>",
    "  <script>",
    "  let favico = null;",
    "  if ('_title' in data && typeof data._title === 'string') \x7b",
    "    document.title = data._title;",
    "    delete data._title;",
    "  \x7d",
    "  if ('_favico' in data && typeof data._favico === 'string') \x7b",
    "    favico = data._favico;",
    "    delete data._favico;",
    "  \x7d",
    "  document.getElementById(\"json-output\").innerHTML = createJson(data, '_links' in data ? data._links : null, '');",
    "  if (favico) \x7b",
    "    document.querySelector(\"link[rel~='icon']\").href = favico;",
    "  \x7d",
    "  </script>",
    "</body>",
    "",
    "</html>"]

def linesText (lines : List String) : List Char := lines.flatMap fun line => line.toList ++ ['\n']

def pageHead : List Char := List.intercalate ['\n'] (pageHeadLines.map String.toList)

def scriptHead : List Char := '\n' :: linesText scriptHeadLines ++ "    const data = ".toList

def scriptTail : List Char := ";\n  ".toList

def ownEndTag : List Char := "</script>".toList

def pageTail : List Char := '\n' :: List.intercalate ['\n'] (pageTailLines.map String.toList)

/-- With `escape = "none"` the text goes into the page as it is. -/
def DataHtmlTemplate.render (rawJsonAsString : List Char) : List Char :=
  pageHead ++ (scriptHead ++ rawJsonAsString ++ scriptTail ++ ownEndTag ++ pageTail)

end Template

section Response

structure Response where
  contentType : String
  body : List Char
  deriving DecidableEq, Repr

/-- A value of a header, if all of it is visible ASCII or a tab. -/
def toStr (value : List UInt8) : Option (List Char) :=
  if value.all fun b => 32 ≤ b && b < 127 || b == 9 then
    some (value.map fun b => Char.ofNat b.toNat)
  else none

def trim (s : List Char) : List Char :=
  ((s.dropWhile fun c => c == ' ' || c == '\t').reverse.dropWhile
    fun c => c == ' ' || c == '\t').reverse

/-- Some value of the `Accept` headers names `text/html`, in any letter case. -/
def acceptHeaderContainsTextHtml (accept : List (List UInt8)) : Bool :=
  (((accept.filterMap toStr).flatMap fun s => s.splitOn ',').map
    fun s => trim (s.takeWhile fun c => c != ';')).any
      fun s => s.map Char.toLower == "text/html".toList

/-- `render` writes into a string, which does not fail. -/
def jsonOrHtml (accept : List (List UInt8)) (rawJsonAsString : List Char) : Response :=
  if acceptHeaderContainsTextHtml accept then
    ⟨"text/html; charset=utf-8", DataHtmlTemplate.render rawJsonAsString⟩
  else ⟨"application/json", rawJsonAsString⟩

def bytesOf (s : String) : List UInt8 := s.toList.map fun c => UInt8.ofNat c.toNat

example : acceptHeaderContainsTextHtml [bytesOf "application/json, Text/Html; q=0.5"] = true := by
  decide +kernel

end Response

section Closing

/-- The page is the template with the data in it, its script element ends at the end tag of the
template, and the data has no end tag in it, in any letter case. -/
structure Intact (json page : List Char) : Prop where
  inserted : page = pageHead ++ (scriptHead ++ json ++ scriptTail ++ ownEndTag ++ pageTail)
  ends : scriptEnd .data (page.drop pageHead.length) =
    some (scriptHead ++ json ++ scriptTail ++ ownEndTag).length
  unclosed : ¬ Occurs (Begins endTag) json

theorem run_linesText_cons {chars : List Char} {lines : List String}
    (line : run .data (chars ++ ['\n']) = .data) (rest : run .data (linesText lines) = .data) :
    run .data (linesText (String.ofList chars :: lines)) = .data := by
  rw [linesText, List.flatMap_cons, String.toList_ofList, run_append, line]
  exact rest

set_option maxRecDepth 4000 in
theorem run_scriptHeadLines : run .data (linesText scriptHeadLines) = .data := by
  unfold scriptHeadLines
  repeat refine run_linesText_cons (by decide +kernel) ?_
  rfl

theorem run_scriptHead : run .data scriptHead = .data := by
  have hfirst : State.data.next '\n' = .data := rfl
  rw [scriptHead, List.cons_append, run_cons, hfirst, run_append, run_scriptHeadLines]
  decide +kernel

/-- Behind the semicolon the end tag of the template ends the element, but for a text that is
double escaped. -/
theorem scriptEnd_own {l : Level} (unended : l ≠ .ended) (after : List Char) :
    scriptEnd l.state (['\n', ' ', ' ', '<', '/', 's', 'c', 'r', 'i', 'p', 't', '>'] ++ after) =
      some 12 ↔ l ≠ .doubleEscaped := by
  cases l with
  | data => exact iff_of_true rfl (by decide)
  | escaped => exact iff_of_true rfl (by decide)
  | doubleEscaped =>
    refine iff_of_false (fun h => ?_) (fun h => h rfl)
    rw [Level.state, scriptEnd_append (by decide)] at h
    obtain ⟨n, hn, hsum⟩ := Option.map_eq_some_iff.mp h
    have hpos := scriptEnd_pos hn
    simp only [List.length_cons, List.length_nil] at hsum
    omega
  | ended => exact absurd rfl unended

theorem ends_at {text : List Char} (unended : (run .data text).level ≠ .ended) (after : List Char) :
    scriptEnd .data (text ++ (scriptTail ++ ownEndTag) ++ after) =
      some (text ++ (scriptTail ++ ownEndTag)).length ↔
    (run .data text).level ≠ .doubleEscaped := by
  have hown : scriptTail ++ ownEndTag =
      ';' :: ['\n', ' ', ' ', '<', '/', 's', 'c', 'r', 'i', 'p', 't', '>'] := by
    decide +kernel
  have hended : run .data text ≠ .ended := by
    intro h
    rw [h] at unended
    exact unended rfl
  rw [hown, List.append_assoc, scriptEnd_append hended, List.cons_append,
    scriptEnd_neutral (by decide) unended, Option.map_map]
  refine Iff.trans ⟨fun h => ?_, fun h => ?_⟩ (scriptEnd_own unended after)
  · obtain ⟨n, hn, hsum⟩ := Option.map_eq_some_iff.mp h
    rw [hn, Option.some.injEq]
    simp only [Function.comp_apply, List.length_append, List.length_cons, List.length_nil] at hsum
    omega
  · rw [h, Option.map_some, Option.some.injEq]
    simp only [Function.comp_apply, List.length_append, List.length_cons, List.length_nil]
    omega

theorem ends_iff {json : List Char} (unclosed : ¬ Occurs (BeginsTag endTag) json) :
    scriptEnd .data (scriptHead ++ json ++ scriptTail ++ ownEndTag ++ pageTail) =
      some (scriptHead ++ json ++ scriptTail ++ ownEndTag).length ↔ ¬ LeavesOpen json := by
  obtain ⟨hunended, hopen⟩ := (reads_text unclosed).1
  have hrun : run .data (scriptHead ++ json) = run .data json := by
    rw [run_append, run_scriptHead]
  rw [List.append_assoc (scriptHead ++ json), ← hopen.not, ← hrun]
  exact ends_at (by rwa [hrun]) pageTail

theorem drop_pageHead (json : List Char) : (DataHtmlTemplate.render json).drop pageHead.length =
    scriptHead ++ json ++ scriptTail ++ ownEndTag ++ pageTail := by
  rw [DataHtmlTemplate.render, List.drop_left]

theorem scriptEnd_early {json : List Char} {n : ℕ} (h : scriptEnd .data json = some n) :
    scriptEnd .data ((DataHtmlTemplate.render json).drop pageHead.length) =
      some (n + scriptHead.length) := by
  have hopen : run .data scriptHead ≠ .ended := by
    rw [run_scriptHead]
    exact fun h => by cases h
  rw [drop_pageHead, List.append_assoc, List.append_assoc, List.append_assoc,
    scriptEnd_append hopen, run_scriptHead, scriptEnd_append_of_some h, Option.map_some]

theorem intact_iff (json : List Char) : Intact json (DataHtmlTemplate.render json) ↔
    ¬ Occurs (Begins endTag) json ∧ ¬ LeavesOpen json := by
  have hunclosed : ¬ Occurs (Begins endTag) json → ¬ Occurs (BeginsTag endTag) json := by
    rintro h ⟨rest, hrest, htag⟩
    exact h ⟨rest, hrest, htag.begins⟩
  constructor
  · rintro ⟨_, hends, hclosed⟩
    rw [drop_pageHead] at hends
    exact ⟨hclosed, (ends_iff (hunclosed hclosed)).mp hends⟩
  · rintro ⟨hclosed, hopen⟩
    refine ⟨rfl, ?_, hclosed⟩
    rw [drop_pageHead]
    exact (ends_iff (hunclosed hclosed)).mpr hopen

end Closing

end RustExperiments.Http
