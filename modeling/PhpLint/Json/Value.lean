/-!
JSON values and their written form: two spaces for each level, one member or element a line.
Members keep their order.
-/

namespace PhpLint.Json

inductive Value where
  | null
  | bool (value : Bool)
  | number (value : Nat)
  | string (value : String)
  | array (elements : List Value)
  | object (members : List (String × Value))
  deriving Inhabited, Repr

namespace Value

def hexDigits (n width : Nat) : List Char :=
  let digits := Nat.toDigits 16 n
  List.replicate (width - digits.length) '0' ++ digits

def escapeChar (c : Char) : List Char :=
  match c with
  | '\x22' => ['\\', '\x22']
  | '\\' => ['\\', '\\']
  | '\n' => ['\\', 'n']
  | '\r' => ['\\', 'r']
  | '\t' => ['\\', 't']
  | '\x08' => ['\\', 'b']
  | '\x0c' => ['\\', 'f']
  | c => if c.toNat < 0x20 then ['\\', 'u'] ++ hexDigits c.toNat 4 else [c]

def quote (s : String) : String := .ofList ('\x22' :: s.toList.flatMap escapeChar ++ ['\x22'])

def newline (depth : Nat) : String := "\n" ++ String.ofList (List.replicate (2 * depth) ' ')

mutual

/-- The text of a value that stands `depth` levels deep. -/
def pretty (depth : Nat) : Value → String
  | null => "null"
  | bool true => "true"
  | bool false => "false"
  | number n => toString n
  | string s => quote s
  | array [] => "[]"
  | array (v :: vs) => "[" ++ newline (depth + 1) ++ pretty (depth + 1) v
    ++ prettyElements (depth + 1) vs ++ newline depth ++ "]"
  | object [] => "\x7b\x7d"
  | object (m :: ms) => "\x7b" ++ newline (depth + 1) ++ prettyMember (depth + 1) m
    ++ prettyMembers (depth + 1) ms ++ newline depth ++ "\x7d"

def prettyElements (depth : Nat) : List Value → String
  | [] => ""
  | v :: vs => "," ++ newline depth ++ pretty depth v ++ prettyElements depth vs

def prettyMember (depth : Nat) : String × Value → String
  | (name, v) => quote name ++ ": " ++ pretty depth v

def prettyMembers (depth : Nat) : List (String × Value) → String
  | [] => ""
  | m :: ms => "," ++ newline depth ++ prettyMember depth m ++ prettyMembers depth ms

end

def text (v : Value) : String := v.pretty 0

end Value

end PhpLint.Json
