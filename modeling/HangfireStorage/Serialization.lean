import HangfireStorage.Primitives
import Mathlib.Data.List.Basic
import Mathlib.Data.List.Nodup

/-!
# Dictionaries and SerializationHelper

Hangfire.Core's SerializationHelper is a parameter, of which only the round trip
is used. The JSON of string dictionaries, without its escapes of control
characters, is one instance.
-/

namespace HangfireStorage

/-- A `Dictionary<string, string>`, entries in enumeration order. -/
structure Dictionary where
  entries : List (String × Option String)
  nodup : (entries.map Prod.fst).Nodup
  deriving DecidableEq

def Dictionary.empty : Dictionary := ⟨[],.nil⟩

structure SerializationHelper where
  write : Dictionary → String
  read : String → Except Fault Dictionary
  read_write : ∀ d, read (write d) = .ok d

namespace SerializationHelper

/-- `null` is serialized as `null`. -/
def serialize (ser : SerializationHelper) (d : Option Dictionary) : Option String :=
  d.map ser.write

def deserialize (ser : SerializationHelper) : Option String → Except Fault (Option Dictionary)
  | none => .ok none
  | some text => (ser.read text).map some

theorem deserialize_serialize (ser : SerializationHelper) (d : Option Dictionary) :
    ser.deserialize (ser.serialize d) = .ok d := by
  cases d with
  | none => rfl
  | some d => simp [serialize,deserialize,ser.read_write,Except.map]

end SerializationHelper

/-- A string comparer, given by the normal form it compares. -/
structure StringComparer where
  normal : String → String

/-- `OrdinalIgnoreCase` on ASCII text. -/
def StringComparer.asciiIgnoreCase : StringComparer :=
  ⟨fun s => String.ofList (s.toList.map Char.toUpper)⟩

/-- `new Dictionary(source, comparer)`. -/
def Dictionary.copy (comparer : StringComparer) : Option Dictionary → Except Fault Dictionary
  | none => .error .argumentNull
  | some d => if ((d.entries.map Prod.fst).map comparer.normal).Nodup then .ok d else .error .argument

namespace Json

def escape (c : Char) : List Char := if c = '"' ∨ c = '\\' then ['\\',c] else [c]

def quoted (s : String) : List Char := '"' :: (s.toList.flatMap escape ++ ['"'])

def value : Option String → List Char
  | none => ['n','u','l','l']
  | some s => quoted s

/-- Members after the opening brace, each with the comma before it. -/
def members : List (String × Option String) → List Char
  | [] => ['}']
  | e::es => ',' :: (quoted e.1 ++ ':' :: (value e.2 ++ members es))

def write (es : List (String × Option String)) : List Char :=
  match members es with
  | ','::cs => '{'::cs
  | cs => '{'::cs

def unescape : List Char → Option (List Char × List Char)
  | [] => none
  | '"'::cs => some ([],cs)
  | '\\'::c::cs => (unescape cs).map fun r => (c::r.1,r.2)
  | c::cs => (unescape cs).map fun r => (c::r.1,r.2)

def unquote : List Char → Option (String × List Char)
  | '"'::cs => (unescape cs).map fun r => (String.ofList r.1,r.2)
  | _ => none

def readValue : List Char → Option (Option String × List Char)
  | 'n' :: 'u' :: 'l' :: 'l' :: cs => some (none,cs)
  | cs => (unquote cs).map fun r => (some r.1,r.2)

def readMembers : ℕ → List Char → Option (List (String × Option String))
  | _, ['}'] => some []
  | n+1, ','::cs =>
    (unquote cs).bind fun k => (readValue k.2.tail).bind fun v =>
      (readMembers n v.2).map fun es => (k.1,v.1)::es
  | _, _ => none

def read : List Char → Option (List (String × Option String))
  | ['{','}'] => some []
  | '{'::cs => readMembers (cs.length+1) (','::cs)
  | _ => none

theorem unescape_escape (s rest : List Char) :
    unescape (s.flatMap escape ++ '"' :: rest) = some (s,rest) := by
  induction s with
  | nil => rfl
  | cons c s ih =>
    by_cases hc : c = '"' ∨ c = '\\'
    · simp [escape,hc,unescape,ih]
    · rw [not_or] at hc
      simp [escape,hc.1,hc.2,unescape,ih]

theorem unquote_quoted (s : String) (rest : List Char) :
    unquote (quoted s ++ rest) = some (s,rest) := by
  simp [quoted,unquote,unescape_escape]

theorem readValue_value (v : Option String) (rest : List Char) :
    readValue (value v ++ rest) = some (v,rest) := by
  cases v with
  | none => rfl
  | some s =>
    have hq : value (some s) ++ rest = '"' :: (s.toList.flatMap escape ++ '"' :: rest) := by
      simp [value,quoted]
    rw [hq]
    simp [readValue,unquote,unescape_escape]

theorem readMembers_members (es : List (String × Option String)) (n : ℕ) (hn : es.length ≤ n) :
    readMembers n (members es) = some es := by
  induction es generalizing n with
  | nil => cases n <;> rfl
  | cons e es ih =>
    obtain ⟨m,rfl⟩ : ∃ m, n = m+1 := ⟨n-1,by simp at hn; omega⟩
    have hrest := ih m (by simpa using hn)
    simp [members,readMembers,unquote_quoted,readValue_value,hrest]

theorem length_le_members (es : List (String × Option String)) : es.length ≤ (members es).length := by
  induction es with
  | nil => simp
  | cons e es ih => simp [members]; omega

theorem read_write (es : List (String × Option String)) : read (write es) = some es := by
  cases es with
  | nil => rfl
  | cons e es =>
    have hm := readMembers_members (e::es) ((members (e::es)).length) (length_le_members _)
    simp only [write,members,quoted,List.cons_append] at hm ⊢
    exact hm

/-- The JSON instance of SerializationHelper. -/
def helper : SerializationHelper where
  write d := String.ofList (write d.entries)
  read text := match read text.toList with
    | none => .error .serialization
    | some es => if h : (es.map Prod.fst).Nodup then .ok ⟨es,h⟩ else .error .serialization
  read_write d := by simp [read_write,d.nodup]

/-- The elements of an array after the opening bracket, each with the comma before it. -/
def items : List String → List Char
  | [] => [']']
  | s::ss => ',' :: (quoted s ++ items ss)

def array (ss : List String) : List Char :=
  match items ss with
  | ','::cs => '['::cs
  | cs => '['::cs

def readItems : ℕ → List Char → Option (List String)
  | _, [']'] => some []
  | n+1, ','::cs => (unquote cs).bind fun s => (readItems n s.2).map fun ss => s.1::ss
  | _, _ => none

def readArray : List Char → Option (List String)
  | ['[',']'] => some []
  | '['::cs => readItems (cs.length+1) (','::cs)
  | _ => none

theorem readItems_items (ss : List String) (n : ℕ) (hn : ss.length ≤ n) :
    readItems n (items ss) = some ss := by
  induction ss generalizing n with
  | nil => cases n <;> rfl
  | cons s ss ih =>
    obtain ⟨m,rfl⟩ : ∃ m, n = m+1 := ⟨n-1,by simp at hn; omega⟩
    have hrest := ih m (by simpa using hn)
    simp [items,readItems,unquote_quoted,hrest]

theorem length_le_items (ss : List String) : ss.length ≤ (items ss).length := by
  induction ss with
  | nil => simp
  | cons s ss ih => simp [items]; omega

theorem readArray_array (ss : List String) : readArray (array ss) = some ss := by
  cases ss with
  | nil => rfl
  | cons s ss =>
    have hi := readItems_items (s::ss) ((items (s::ss)).length) (length_le_items _)
    simp only [array,items,quoted,List.cons_append] at hi ⊢
    exact hi

def integer (n : ℤ) : List Char := (if n < 0 then ['-'] else []) ++ Nat.toDigits 10 n.natAbs

def readInteger : List Char → ℤ
  | '-'::ds => -Nat.ofDigitChars 10 ds 0
  | ds => Nat.ofDigitChars 10 ds 0

theorem readInteger_integer (n : ℤ) : readInteger (integer n) = n := by
  have habs : Nat.ofDigitChars 10 (Nat.toDigits 10 n.natAbs) 0 = n.natAbs := Nat.ofDigitChars_ten_toDigits
  by_cases hn : n < 0
  · simp only [integer,hn,if_true,List.singleton_append,readInteger,habs]
    omega
  · simp only [integer,hn,if_false,List.nil_append]
    cases hd : Nat.toDigits 10 n.natAbs with
    | nil => exact absurd hd Nat.toDigits_ne_nil
    | cons d ds =>
      -- A digit is no minus sign.
      have hdigit : d.isDigit := Nat.isDigit_of_mem_toDigits (by decide) (by decide) (hd ▸ List.mem_cons_self)
      have hread : readInteger (d::ds) = Nat.ofDigitChars 10 (d::ds) 0 := by
        unfold readInteger
        split
        · rename_i heq
          obtain ⟨rfl,-⟩ := List.cons.inj heq
          exact absurd hdigit (by decide)
        · rfl
      rw [hread,← hd,habs]
      omega

end Json
end HangfireStorage
