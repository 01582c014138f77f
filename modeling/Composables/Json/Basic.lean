import Composables.Decimal.Notation

/-
  JSON values. Integers and binary floating-point numbers are told apart, and the members of an
  object keep the order in which their names first came.
-/

namespace Composables

inductive Json where
  | null
  | bool (b : Bool)
  | int (n : Int)
  | float (x : Decimal.Binary64)
  | string (s : String)
  | array (items : List Json)
  | object (members : List (String × Json))
deriving Repr, Inhabited

namespace Json

abbrev Members := List (String × Json)

/-- Sets a member: a name already there keeps its place and takes the new value. -/
def Members.insert (k : String) (v : Json) : Members → Members
  | [] => [(k, v)]
  | (k', v') :: ms => if k' = k then (k, v) :: ms else (k', v') :: Members.insert k v ms

/-- The value of the first member with a name. -/
def Members.get? (ms : Members) (k : String) : Option Json :=
  (ms.find? fun m => m.1 == k).map (·.2)

def get? : Json → String → Option Json
  | .object ms, k => Members.get? ms k
  | _, _ => none

/-! ## Members -/

theorem Members.get?_insert_self (ms : Members) (k : String) (v : Json) :
    Members.get? (Members.insert k v ms) k = some v := by
  induction ms with
  | nil => simp [insert, get?]
  | cons m ms ih =>
    unfold insert
    split
    · simp [get?]
    · rename_i h
      simpa [get?, h] using ih

theorem Members.get?_insert_of_ne (ms : Members) {k k' : String} (v : Json) (h : k ≠ k') :
    Members.get? (Members.insert k v ms) k' = Members.get? ms k' := by
  induction ms with
  | nil => simp [insert, get?, h]
  | cons m ms ih =>
    unfold insert
    split
    · rename_i hm
      simp [get?, hm, h]
    · by_cases hk : m.1 = k'
      · simp [get?, hk]
      · simpa [get?, hk] using ih

theorem Members.keys_insert (ms : Members) (k : String) (v : Json) :
    (Members.insert k v ms).map (·.1) =
      if k ∈ ms.map (·.1) then ms.map (·.1) else ms.map (·.1) ++ [k] := by
  induction ms with
  | nil => simp [insert]
  | cons m ms ih =>
    unfold insert
    split
    · rename_i hm
      simp [hm]
    · rename_i hm
      simp only [List.map_cons, ih, List.mem_cons, Ne.symm hm, false_or]
      split <;> simp

end Json

end Composables
