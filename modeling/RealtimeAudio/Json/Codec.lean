/-! What a program says of the values that it keeps as JSON, and what it asks of the
library that reads and writes them. A record is described by its fields in order: the
name of each, what it holds, and how it is taken from the record and put into it. What
the library makes of such a description is left open here. -/
namespace RealtimeAudio.Json

inductive ReadError where
  | truncated
  /-- The text is not JSON, or a number in it is beyond every binary64 number. -/
  | malformed
  /-- The text is JSON of the wrong shape. -/
  | mistyped
deriving DecidableEq, Repr

mutual

/-- What a value is, as a type and in JSON. -/
inductive Kind : Type → Type 1
  | bool : Kind Bool
  /-- A whole number of at most `limit`. -/
  | natural (limit : Nat) : Kind Nat
  | single : Kind Float32
  | double : Kind Float
  /-- A record that keeps the values of `initial` where none are given. -/
  | record {σ : Type} (fields : Fields σ) (initial : σ) : Kind σ

inductive Fields : Type → Type 1
  | none {σ : Type} : Fields σ
  | field {σ β : Type} (name : String) (kind : Kind β) (get : σ → β) (set : β → σ → σ)
      (rest : Fields σ) : Fields σ

end

/-- The names of fields, in order. -/
def Fields.names {σ : Type} : Fields σ → List String
  | .none => []
  | .field name _ _ _ rest => name :: rest.names

class Codec where
  /-- Read a whole text. -/
  read : {α : Type} → Kind α → (text : List Char) → Except ReadError α
  write : {α : Type} → Kind α → α → List Char

end RealtimeAudio.Json
