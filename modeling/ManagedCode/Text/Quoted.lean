import ManagedCode.Text.Numeral
import ManagedCode.Text.Unprintable

/-!
# Quoted texts

Two ways of quoting. Messages quote a text so that every character can be seen. Listings quote string literals, and
reading such a literal gives back the string.
-/

namespace ManagedCode.Text

/-- How a message writes one character of a quoted text. -/
def quoteChar (c : Char) : List Char :=
  if c = '\x00' then ['\\', '0']
  else if c = '\t' then ['\\', 't']
  else if c = '\r' then ['\\', 'r']
  else if c = '\n' then ['\\', 'n']
  else if c = '"' then ['\\', '"']
  else if c = '\\' then ['\\', '\\']
  else if isUnprintable c then ['\\', 'u', '\x7b'] ++ Nat.toDigits 16 c.toNat ++ ['\x7d']
  else [c]

def quoted (s : List Char) : String := String.ofList ('"' :: s.flatMap quoteChar ++ ['"'])

/-- The character that an escape in a literal stands for. -/
def unescape? : Char → Option Char
  | 'n' => some '\n'
  | 't' => some '\t'
  | 'r' => some '\r'
  | '0' => some '\x00'
  | '"' => some '"'
  | '\\' => some '\\'
  | _ => none

/-- The string that the inside of a literal stands for. -/
def decodeLiteral : List Char → Option (List Char)
  | [] => some []
  | '\\' :: [] => none
  | '\\' :: c :: rest =>
    match unescape? c, decodeLiteral rest with
    | some u, some r => some (u :: r)
    | _, _ => none
  | c :: rest => (decodeLiteral rest).map (c :: ·)

/-- Reads a string literal: a text between two quotes. -/
def readLiteral (cs : List Char) : Option (List Char) :=
  match cs with
  | '"' :: rest => if rest.getLast? = some '"' then decodeLiteral rest.dropLast else none
  | _ => none

/-- How a literal writes one character of a string. -/
def escapeChar (c : Char) : List Char :=
  if c = '\n' then ['\\', 'n']
  else if c = '\t' then ['\\', 't']
  else if c = '\r' then ['\\', 'r']
  else if c = '\x00' then ['\\', '0']
  else if c = '"' then ['\\', '"']
  else if c = '\\' then ['\\', '\\']
  else [c]

/-- Writes a string as a literal. -/
def writeLiteral (s : List Char) : List Char := '"' :: s.flatMap escapeChar ++ ['"']

end ManagedCode.Text
