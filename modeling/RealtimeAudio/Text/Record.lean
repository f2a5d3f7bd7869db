import RealtimeAudio.Decimal.Layout

/-! One-line texts of records, for logs: a name, and the fields in braces. -/
namespace RealtimeAudio.Text

/-- `Name { field: value, … }`. -/
def record (name : String) (fields : List (String × String)) : String :=
  name ++ " \x7b " ++ ", ".intercalate (fields.map fun (key, value) => key ++ ": " ++ value) ++ " \x7d"

def partialRecord (name : String) (fields : List (String × String)) : String :=
  name ++ " \x7b " ++ ", ".intercalate (fields.map fun (key, value) => key ++ ": " ++ value) ++
    ", .. \x7d"

def wrapped (name value : String) : String := name ++ "(" ++ value ++ ")"

def list (values : List String) : String := "[" ++ ", ".intercalate values ++ "]"

def bool (b : Bool) : String := if b then "true" else "false"

def natural (n : Nat) : String := String.ofList (Nat.toDigits 10 n)

def single (x : Float32) : String := String.ofList (Layout.record.writeSingle x)

def double (x : Float) : String := String.ofList (Layout.record.writeDouble x)

def option (value : Option String) : String :=
  match value with
  | some v => wrapped "Some" v
  | none => "None"

def quotedChar : Char → String
  | '"' => "\\\""
  | '\\' => "\\\\"
  | '\n' => "\\n"
  | '\r' => "\\r"
  | '\t' => "\\t"
  | '\x00' => "\\0"
  | c => c.toString

def quoted (s : String) : String :=
  "\"" ++ String.join (s.toList.map quotedChar) ++ "\""

end RealtimeAudio.Text
