import Yaf.Base.Table
import Yaf.Php.Bytes

namespace Yaf
open Base

/-- A value of the engine. Doubles are kept as bits and objects as handles: nothing here looks
inside them. -/
inductive Zval where
  | null
  | bool (b : Bool)
  | long (n : Int)
  | double (bits : UInt64)
  | string (s : Bytes)
  | array (t : List (Key × Zval))
  | object (handle : Nat)

namespace Zval

def isString : Zval → Bool
  | string _ => true
  | _ => false

def string? : Zval → Option Bytes
  | string s => some s
  | _ => none

/-- `Z_TYPE_P(v) == IS_STRING && Z_STRLEN_P(v)`, with the string. -/
def text? : Zval → Option Bytes
  | string (c :: s) => some (c :: s)
  | _ => none

/-- `zend_is_true`. Both zeros of a double are false. -/
def isTrue : Zval → Bool
  | null => false
  | bool b => b
  | long n => n != 0
  | double bits => bits != 0 && bits != 0x8000000000000000
  | string s => s != [] && s != [48]
  | array t => !t.isEmpty
  | object _ => true

@[simp] theorem string?_string (s : Bytes) : (string s).string? = some s := rfl

theorem string?_eq_some {v : Zval} {s : Bytes} : v.string? = some s ↔ v = string s := by
  cases v <;> simp [string?]

theorem text?_eq_some {v : Zval} {s : Bytes} : v.text? = some s ↔ v = string s ∧ s ≠ [] := by
  cases v with
  | string t =>
    cases t with
    | nil =>
      simp only [text?, reduceCtorEq, string.injEq, false_iff, not_and, not_not]
      exact Eq.symm
    | cons c t =>
      simp only [text?, Option.some.injEq, string.injEq]
      constructor
      · rintro rfl
        exact ⟨rfl, by simp⟩
      · exact And.left
  | _ => simp [text?]

end Zval

end Yaf
