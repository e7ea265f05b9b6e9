import DmrWatchkeeper.Library.Utf8
import Mathlib.Algebra.Field.Rat

/-! JSON texts: their values, a lexer that takes one character at a time, and
the grammar over its tokens. Strings are UTF-16 code units, since an escape may
name any unit. -/
namespace DmrWatchkeeper.Json
open Utf8

def charUnits (c : Char) : List ℕ :=
  if c.toNat < 0x10000 then [c.toNat]
  else [0xD800 + (c.toNat - 0x10000) / 0x400, 0xDC00 + (c.toNat - 0x10000) % 0x400]

/-- The UTF-16 code units of a text. -/
def units (text : List Char) : List ℕ := text.flatMap charUnits

inductive Token where
  | lbrace | rbrace | lbracket | rbracket | comma | colon | null
  | bool (b : Bool)
  | number (q : ℚ)
  | string (u : List ℕ)

/-! ### Numbers and words -/

def digits? (chars : List Char) : Option ℕ :=
  if chars ≠ [] ∧ chars.all Char.isDigit then some (Nat.ofDigitChars 10 chars 0) else none

/-- The digits before the point, without leading zeros. -/
def whole? (chars : List Char) : Option ℕ :=
  if chars.head? = some '0' ∧ chars ≠ ['0'] then none else digits? chars

def fraction? : List Char → Option ℚ
  | [] => some 0
  | _ :: chars => (digits? chars).map fun n => (n : ℚ) / 10 ^ chars.length

def exponent? : List Char → Option ℤ
  | [] => some 0
  | _ :: '-' :: chars => (digits? chars).map fun n => -(n : ℤ)
  | _ :: '+' :: chars => (digits? chars).map fun n => (n : ℤ)
  | _ :: chars => (digits? chars).map fun n => (n : ℤ)

def unsigned? (chars : List Char) : Option ℚ := do
  let (mantissa, exponent) := chars.span fun c => c ≠ 'e' ∧ c ≠ 'E'
  let (whole, fraction) := mantissa.span fun c => c ≠ '.'
  let n ← whole? whole
  let part ← fraction? fraction
  let e ← exponent? exponent
  some ((n + part) * (10 : ℚ) ^ e)

def number? : List Char → Option ℚ
  | '-' :: chars => (unsigned? chars).map fun q => -q
  | chars => unsigned? chars

/-- The token spelled without quotation marks. -/
def bareToken? (chars : List Char) : Option Token :=
  if chars = "null".toList then some .null
  else if chars = "true".toList then some (.bool true)
  else if chars = "false".toList then some (.bool false)
  else (number? chars).map .number

/-! ### The lexer -/

/-- Where in a token the lexer is. -/
inductive Mode where
  | outside
  | bare (chars : List Char)
  | string (u : List ℕ)
  | escape (u : List ℕ)
  | hex (u : List ℕ) (digits : List ℕ)

structure Lexer where
  mode : Mode
  tokens : List Token

def isBlank (c : Char) : Bool := c = ' ' ∨ c = '\t' ∨ c = '\n' ∨ c = '\r'

def isBare (c : Char) : Bool := c.isAlphanum ∨ c = '-' ∨ c = '+' ∨ c = '.'

def punctuation? : Char → Option Token
  | '{' => some .lbrace
  | '}' => some .rbrace
  | '[' => some .lbracket
  | ']' => some .rbracket
  | ',' => some .comma
  | ':' => some .colon
  | _ => none

def escape? : Char → Option ℕ
  | '"' => some 0x22
  | '\\' => some 0x5C
  | '/' => some 0x2F
  | 'b' => some 0x08
  | 'f' => some 0x0C
  | 'n' => some 0x0A
  | 'r' => some 0x0D
  | 't' => some 0x09
  | _ => none

def hexDigit? (c : Char) : Option ℕ :=
  if c.isDigit then some (c.toNat - '0'.toNat)
  else if 'a' ≤ c ∧ c ≤ 'f' then some (c.toNat - 'a'.toNat + 10)
  else if 'A' ≤ c ∧ c ≤ 'F' then some (c.toNat - 'A'.toNat + 10)
  else none

/-- One character between tokens. -/
def stepOutside (tokens : List Token) (c : Char) : Option Lexer :=
  if isBlank c then some ⟨.outside, tokens⟩
  else if c = '"' then some ⟨.string [], tokens⟩
  else if isBare c then some ⟨.bare [c], tokens⟩
  else (punctuation? c).map fun token => ⟨.outside, tokens ++ [token]⟩

def step (lexer : Lexer) (c : Char) : Option Lexer :=
  match lexer.mode with
  | .outside => stepOutside lexer.tokens c
  | .bare chars =>
    if isBare c then some ⟨.bare (chars ++ [c]), lexer.tokens⟩
    else (bareToken? chars).bind fun token => stepOutside (lexer.tokens ++ [token]) c
  | .string u =>
    if c = '"' then some ⟨.outside, lexer.tokens ++ [.string u]⟩
    else if c = '\\' then some ⟨.escape u, lexer.tokens⟩
    else if c.toNat < 0x20 then none
    else some ⟨.string (u ++ charUnits c), lexer.tokens⟩
  | .escape u =>
    if c = 'u' then some ⟨.hex u [], lexer.tokens⟩
    else (escape? c).map fun unit => ⟨.string (u ++ [unit]), lexer.tokens⟩
  | .hex u digits =>
    (hexDigit? c).map fun digit =>
      if digits.length < 3 then ⟨.hex u (digits ++ [digit]), lexer.tokens⟩
      else ⟨.string (u ++ [(digits ++ [digit]).foldl (16 * · + ·) 0]), lexer.tokens⟩

def run (lexer : Lexer) (text : List Char) : Option Lexer := text.foldlM step lexer

def finish (lexer : Lexer) : Option (List Token) :=
  match lexer.mode with
  | .outside => some lexer.tokens
  | .bare chars => (bareToken? chars).map fun token => lexer.tokens ++ [token]
  | _ => none

def lex (text : List Char) : Option (List Token) := (run ⟨.outside, []⟩ text).bind finish

/-! ### Values -/

inductive Value where
  | null
  | bool (b : Bool)
  | number (q : ℚ)
  | string (u : List ℕ)
  | array (items : List Value)
  | object (members : List (List ℕ × Value))

mutual

/-- The value that a list of tokens denotes. -/
inductive Denotes : List Token → Value → Prop where
  | null : Denotes [.null] .null
  | bool (b : Bool) : Denotes [.bool b] (.bool b)
  | number (q : ℚ) : Denotes [.number q] (.number q)
  | string (u : List ℕ) : Denotes [.string u] (.string u)
  | emptyArray : Denotes [.lbracket, .rbracket] (.array [])
  | array {tokens items} (inner : Elements tokens items) :
      Denotes (.lbracket :: tokens ++ [.rbracket]) (.array items)
  | emptyObject : Denotes [.lbrace, .rbrace] (.object [])
  | object {tokens members} (inner : Members tokens members) :
      Denotes (.lbrace :: tokens ++ [.rbrace]) (.object members)

inductive Elements : List Token → List Value → Prop where
  | last {tokens item} (value : Denotes tokens item) : Elements tokens [item]
  | more {tokens rest item items} (value : Denotes tokens item) (others : Elements rest items) :
      Elements (tokens ++ .comma :: rest) (item :: items)

inductive Members : List Token → List (List ℕ × Value) → Prop where
  | last (key : List ℕ) {tokens item} (value : Denotes tokens item) :
      Members (.string key :: .colon :: tokens) [(key, item)]
  | more (key : List ℕ) {tokens rest item members} (value : Denotes tokens item)
      (others : Members rest members) :
      Members (.string key :: .colon :: tokens ++ .comma :: rest) ((key, item) :: members)

end

/-- The bytes are a JSON text in UTF-8 with this value. -/
def Reads (bytes : List UInt8) (value : Value) : Prop :=
  ∃ text tokens, encode text = bytes ∧ lex text = some tokens ∧ Denotes tokens value

/-- The member of this name; where a name is repeated, the last one counts. -/
def get? (members : List (List ℕ × Value)) (name : List Char) : Option Value :=
  (members.reverse.find? fun member => member.1 = units name).map Prod.snd

variable {tokens : List Token} {members : List (List ℕ × Value)} {name : List Char} {u : List ℕ}

theorem get?_mem {value : Value} (found : get? members name = some value) :
    ∃ key, (key, value) ∈ members := by
  rw [get?, Option.map_eq_some_iff] at found
  obtain ⟨⟨key, _⟩, member, rfl⟩ := found
  exact ⟨key, List.mem_reverse.mp (List.mem_of_find?_eq_some member)⟩

theorem Denotes.eq_string (denotes : Denotes tokens (.string u)) : tokens = [.string u] := by
  cases denotes
  rfl

/-- A member that is a string is one of the tokens. -/
theorem Members.string_mem {key : List ℕ} {tokens members} :
    Members tokens members → (key, .string u) ∈ members → .string u ∈ tokens
  | .last _ value, member => by
    obtain ⟨rfl, rfl⟩ := Prod.mk.inj (List.mem_singleton.mp member)
    simp [value.eq_string]
  | .more _ value others, member => by
    rcases List.mem_cons.mp member with here | later
    · obtain ⟨rfl, rfl⟩ := Prod.mk.inj here
      simp [value.eq_string]
    · simp [others.string_mem later]

/-- What is read from an object as a string is one of its tokens. -/
theorem Denotes.string_mem (denotes : Denotes tokens (.object members))
    (found : get? members name = some (.string u)) : .string u ∈ tokens := by
  obtain ⟨key, member⟩ := get?_mem found
  cases denotes with
  | emptyObject => cases member
  | object inner => simp [inner.string_mem member]

end DmrWatchkeeper.Json
