import Stencil.Token.Basic

namespace Stencil

-- What has to stand at a place where something else was found.
inductive Wanted
  | expression
  | propertyName
  | propertyKey
  | punct (p : Punct)
deriving DecidableEq

def Wanted.text : Wanted → String
  | expression => "expression"
  | propertyName => "property name"
  | propertyKey => "property key"
  | punct p => "`" ++ p.text ++ "`"

inductive ExprFault
  | blank
  | character (c : Char)
  | unclosedString
  | number (text : String)
  | hexDigit
  | codePoint
  | found (wanted : Wanted) (kind : Option Token.Kind)
  | ended
  | trailing (kind : Token.Kind)
deriving DecidableEq

namespace ExprFault

def code : ExprFault → String
  | blank | ended => "unexpected-end"
  | character _ => "unexpected-char"
  | unclosedString => "unterminated-string"
  | number _ => "invalid-number"
  | hexDigit | codePoint | found _ _ => "unexpected-token"
  | trailing _ => "trailing-input"

def message : ExprFault → String
  | blank => "Empty expression"
  | character c => "Unexpected character " ++ Quoted.char c
  | unclosedString => "Unterminated string literal"
  | number text => "Invalid number literal: " ++ text
  | hexDigit => "Expected hex digit, found escape end"
  | codePoint => "Expected valid code point, found escape"
  | found wanted kind => "Expected " ++ wanted.text ++ ", found " ++ Token.describe kind
  | ended => "Unexpected end of expression"
  | trailing kind => "Unexpected " ++ kind.describe ++ " after expression"

end ExprFault

-- Why a text is not an expression, and the byte offset where that shows, as a word of 32 bits.
structure ExprError where
  fault : ExprFault
  place : UInt32
deriving DecidableEq

namespace ExprError

-- Of an offset that is too large, the lower bits are kept.
def ofFault (fault : ExprFault) (offset : Nat) : ExprError :=
  ⟨fault, .ofNat offset⟩

def offset (e : ExprError) : Nat :=
  e.place.toNat

theorem offset_eq_of_lt {e : ExprError} {n : Nat} (h : e.place = .ofNat n)
    (hn : n < UInt32.size) : e.offset = n := by
  rw [offset, h, UInt32.toNat_ofNat_of_lt' hn]

def code (e : ExprError) : String :=
  e.fault.code

def message (e : ExprError) : String :=
  e.fault.message

def text (e : ExprError) : String :=
  e.message ++ " (at offset " ++ toString e.offset ++ ")"

end ExprError
end Stencil
