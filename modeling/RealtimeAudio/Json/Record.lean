import RealtimeAudio.Decimal.Layout
import RealtimeAudio.Json.Value

/-! Records as JSON. A record is read from an object, whose members may stand in any
order, be missing or be unknown, or from an array of the fields in order, which may
stop early. A field that is not given keeps the value it has. Written, a record is an
object of all its fields in order, without blanks. -/
namespace RealtimeAudio.Json

/-- A field of a record `σ`: its name, and how its value is read into the record. -/
structure FieldReader (σ : Type) where
  name : String
  read : Reader (σ → σ)

def FieldReader.of {σ β : Type} (name : String) (reader : Reader β) (assign : β → σ → σ) :
    FieldReader σ :=
  ⟨name, assign <$> reader⟩

namespace Reader
variable {σ : Type}

/-- Whether another element of an array follows; a comma in front of it is taken. -/
def hasElement (first : Bool) : Reader Bool := do
  let c ← upcoming
  if c = ']' then return false
  if first then return true
  if c ≠ ',' then throw .malformed
  advance
  if (← upcoming) = ']' then throw .malformed
  return true

def elements : (fields : List (FieldReader σ)) → (first : Bool) → σ → Reader σ
  | [], _, s => return s
  | field :: rest, first, s => do
    if ← hasElement first then
      let assign ← field.read
      elements rest false (assign s)
    else return s

/-- Whether another member of an object follows; a comma in front of it and the quote
that opens its name are taken. -/
def hasMember (first : Bool) : Reader Bool := do
  let c ← upcoming
  if c = '}' then return false
  if first then mark '"'
  else
    mark ','
    mark '"'
  return true

/-- The members of an object. A field given twice is refused at its second name. Each
member takes a character, so the text ahead is fuel enough. -/
def members (fields : List (FieldReader σ)) :
    (fuel : List Char) → (seen : List String) → (first : Bool) → σ → Reader σ
  | [], _, _, _ => throw .truncated
  | _ :: fuel, seen, first, s => do
    if ← hasMember first then
      let name := String.ofList (← string)
      match fields.find? (·.name == name) with
      | some field =>
        if seen.contains name then throw .mistyped
        mark ':'
        let assign ← field.read
        members fields fuel (name :: seen) false (assign s)
      | none =>
        mark ':'
        passValue
        members fields fuel seen false s
    else return s

def record (fields : List (FieldReader σ)) (initial : σ) : Reader σ := do
  match ← upcoming with
  | '[' =>
    advance
    let s ← elements fields true initial
    mark ']'
    return s
  | '{' =>
    advance
    let s ← members fields (← get) [] true initial
    mark '}'
    return s
  | _ => refuse

end Reader

def object (members : List (String × List Char)) : List Char :=
  let texts := members.map fun (name, value) => '"' :: name.toList ++ '"' :: ':' :: value
  '{' :: (List.intercalate [','] texts) ++ ['}']

def bool (b : Bool) : List Char := (if b then "true" else "false").toList

def natural (n : Nat) : List Char := Nat.toDigits 10 n

mutual

def Kind.reader : {α : Type} → Kind α → Reader α
  | _, .bool => Reader.wantedBool
  | _, .natural limit => Reader.wantedNatural limit
  | _, .single => Reader.wantedSingle
  | _, .double => Reader.wantedDouble
  | _, .record fields initial => Reader.record fields.readers initial

def Fields.readers : {σ : Type} → Fields σ → List (FieldReader σ)
  | _, .none => []
  | _, .field name kind _ set rest => .of name kind.reader set :: rest.readers

end

mutual

/-- A number that is not finite becomes `null`, which no reader of numbers takes. -/
def Kind.text : {α : Type} → Kind α → α → List Char
  | _, .bool, b => bool b
  | _, .natural _, n => natural n
  | _, .single, x => Layout.jsonSingle.writeSingle x
  | _, .double, x => Layout.jsonDouble.writeDouble x
  | _, .record fields _, s => object (fields.texts s)

def Fields.texts : {σ : Type} → Fields σ → σ → List (String × List Char)
  | _, .none, _ => []
  | _, .field name kind get _ rest, s => (name, kind.text (get s)) :: rest.texts s

end

/-- The readers and the texts together are one library. -/
instance : Codec where
  read kind := kind.reader.run
  write := Kind.text

end RealtimeAudio.Json
