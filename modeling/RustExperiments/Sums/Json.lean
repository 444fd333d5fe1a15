/- module: RustExperiments/Sums/Json
   digest: A JSON library for ASCII bodies without white space. -/

import RustExperiments.Lib.Json
import RustExperiments.Sums.Store

set_option autoImplicit false
set_option relaxedAutoImplicit false

namespace RustExperiments.Sums

open RustExperiments.Lib

/-- An integer in the range of `i32`. -/
def i32OfInt (i : ℤ) : Option Int32 := if (Int32.ofInt i).toInt = i then some (.ofInt i) else none

theorem i32OfInt_toInt (x : Int32) : i32OfInt x.toInt = some x := by
  simp [i32OfInt]

def SumRequest.keys : List String := ["id", "a", "b", "c"]

def SumRequest.ofScalars : List Json.Scalar → Option SumRequest
  | [.string id, .int a, .int b, .int c] => do
    let a ← i32OfInt a
    let b ← i32OfInt b
    let c ← i32OfInt c
    some ⟨id, a, b, c⟩
  | _ => none

def SumRequest.fromJson (body : List UInt8) : Except String SumRequest :=
  match (Json.readObject SumRequest.keys (body.map fun b => Char.ofNat b.toNat)).bind
    SumRequest.ofScalars with
  | some req => .ok req
  | none => .error "expected value at line 1 column 1"

def JournalEntry.fields (entry : JournalEntry) : List (String × Json.Scalar) :=
  [("id", .string entry.id), ("a", .int entry.a.toInt), ("b", .int entry.b.toInt),
    ("c", .int entry.c.toInt), ("timestamp_us", .int entry.timestampUs)]

def JournalEntry.keys : List String := ["id", "a", "b", "c", "timestamp_us"]

def JournalEntry.ofScalars : List Json.Scalar → Option JournalEntry
  | [.string id, .int a, .int b, .int c, .int timestampUs] => do
    let a ← i32OfInt a
    let b ← i32OfInt b
    let c ← i32OfInt c
    some ⟨id, a, b, c, timestampUs.toNat⟩
  | _ => none

def JournalEntry.toJson (entry : JournalEntry) : String :=
  String.ofList (Json.writeObject entry.fields)

def JournalEntry.fromJson (text : String) : Except String JournalEntry :=
  match (Json.readObject JournalEntry.keys text.toList).bind JournalEntry.ofScalars with
  | some entry => .ok entry
  | none => .error "invalid entry"

theorem JournalEntry.fromJson_toJson (entry : JournalEntry) :
    JournalEntry.fromJson entry.toJson = .ok entry := by
  have hread : Json.readObject JournalEntry.keys (Json.writeObject entry.fields) =
      some (entry.fields.map Prod.snd) := Json.readObject_writeObject entry.fields
  have hscalars : JournalEntry.ofScalars (entry.fields.map Prod.snd) = some entry := by
    simp [fields, ofScalars, i32OfInt_toInt]
  rw [JournalEntry.fromJson, JournalEntry.toJson, String.toList_ofList, hread, Option.bind_some,
    hscalars]

def asciiJson : Crates where
  requestFromSlice := SumRequest.fromJson
  entryToVec := JournalEntry.toJson
  entryFromSlice := JournalEntry.fromJson
  entryFromSlice_toVec := JournalEntry.fromJson_toJson
  capacity := 2 ^ 40
  capacity_lt := by decide
  tableFull := "No space left on device (os error 28)"

def bodyOf (text : String) : List UInt8 := text.toList.map fun c => UInt8.ofNat c.toNat

example : asciiJson.requestFromSlice (bodyOf "\x7b\"id\":\"foobar\",\"a\":2,\"b\":3,\"c\":5\x7d") =
    .ok ⟨"foobar", 2, 3, 5⟩ := by decide +kernel

end RustExperiments.Sums
