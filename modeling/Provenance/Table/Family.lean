/-
# Families of tables

Tables are copied and go on separately: a family is the list of all copies made so far, each with a
number.  Requests add texts to one table, copy one, or ask about one.

The main facts:

* `run_other` : a request changes no table but the one it adds to.
-/
import Provenance.Table.Basic

namespace Provenance

/-- What string tables and source tables have in common. -/
class Interning (T : Type) where
  /-- The index of a text, and the table with the text in it. -/
  intern : T → Text → Option Text → Nat × T
  /-- The texts of the table. -/
  names : T → TextTable
  /-- The index of a text, if it is in the table. -/
  indexOf? : T → Text → Option Nat
  /-- The content at an index, if one is known. -/
  content? : T → Number → Option Text
  /-- Whether some content is known. -/
  anyContent : T → Bool
  /-- A table of its own, made of the same texts with their contents. -/
  copy : T → T

instance : Interning TextTable where
  intern t s _ := t.intern s
  names t := t
  indexOf? := TextTable.indexOf?
  content? _ _ := none
  anyContent _ := false
  copy t := TextTable.ofList t.texts

instance : Interning ContentTable where
  intern t s content := t.intern s content
  names := ContentTable.names
  indexOf? t s := t.names.indexOf? s
  content? := ContentTable.content?
  anyContent := ContentTable.anyContent
  copy t := ContentTable.ofList t.names.texts t.contents

/-- What can be asked of one table. -/
inductive TableQuestion where
  | indexOf (s : Text)
  | get (index : Number)
  | has (index : Number)
  | size
  | values
  | content (index : Number)
  | anyContent

/-- A request to a family. -/
inductive TableRequest where
  | intern (table : Nat) (s : Text) (content : Option Text)
  | clone (table : Nat)
  | ask (table : Nat) (question : TableQuestion)

/-- The answer to a request. -/
inductive TableAnswer where
  | index (i : Option Nat)
  | string (s : Text)
  | has (b : Bool)
  | size (n : Nat)
  | values (ss : List Text)
  | content (c : Option Text)
  | anyContent (b : Bool)
  | cloned (table : Nat)
  | missing (e : MissingIndex)
  | unknownTable
  deriving DecidableEq, Repr

variable {T : Type} [Interning T]

/-- The answer of one table. -/
def TableQuestion.answer (q : TableQuestion) (t : T) : TableAnswer :=
  match q with
  | indexOf s => .index (Interning.indexOf? t s)
  | get i =>
    match (Interning.names t).get i with
    | .ok s => .string s
    | .error e => .missing e
  | has i => .has ((Interning.names t).has i)
  | size => .size (Interning.names t).size
  | values => .values (Interning.names t).texts
  | content i => .content (Interning.content? t i)
  | anyContent => .anyContent (Interning.anyContent t)

/-- The answer to a request, and the family after it.  A copy gets the next number. -/
def TableRequest.run (r : TableRequest) (tables : List T) : TableAnswer × List T :=
  match r with
  | intern n s content =>
    match tables[n]? with
    | some t =>
      let (i, t) := Interning.intern t s content
      (.index (some i), tables.set n t)
    | none => (.unknownTable, tables)
  | clone n =>
    match tables[n]? with
    | some t => (.cloned tables.length, tables ++ [Interning.copy t])
    | none => (.unknownTable, tables)
  | ask n q =>
    match tables[n]? with
    | some t => (q.answer t, tables)
    | none => (.unknownTable, tables)

/-- The answers to some requests, and the family after all of them. -/
def TableRequest.runAll (tables : List T) : List TableRequest → List TableAnswer × List T
  | [] => ([], tables)
  | r :: rest =>
    let (answer, tables) := r.run tables
    let (answers, tables) := runAll tables rest
    (answer :: answers, tables)

/-- A request changes no table but the one it adds to. -/
theorem run_other (r : TableRequest) (tables : List T) (n : Nat) (hn : n < tables.length)
    (h : ∀ s content, r ≠ .intern n s content) : (r.run tables).2[n]? = tables[n]? := by
  cases r with
  | intern m s content =>
    have hm : m ≠ n := fun e => h s content (by rw [e])
    simp only [TableRequest.run]
    cases tables[m]? with
    | none => rfl
    | some t => exact List.getElem?_set_ne hm
  | clone m =>
    simp only [TableRequest.run]
    cases tables[m]? with
    | none => rfl
    | some t => exact List.getElem?_append_left hn
  | ask m q =>
    simp only [TableRequest.run]
    cases tables[m]? <;> rfl

end Provenance
