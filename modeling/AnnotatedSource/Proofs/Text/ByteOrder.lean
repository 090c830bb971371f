import Mathlib.Data.String.Basic
import Mathlib.Tactic.SplitIfs

/-!
The order of strings.  Strings that are compared character by character are in the order of their
UTF-8 bytes, since the bytes of a character tell where it stands among the others and none of them
are the first bytes of another character.
-/

set_option autoImplicit false
set_option relaxedAutoImplicit false

namespace AnnotatedSource.Text

/-- The UTF-8 bytes of a string. -/
def bytesOf (text : String) : List UInt8 := text.toByteArray.data.toList

theorem bytesOf_eq_flatMap (text : String) :
    bytesOf text = text.toList.flatMap String.utf8EncodeChar := by
  have encoded : text.toByteArray = text.toList.utf8Encode := by
    rw [← String.toByteArray_ofList, String.ofList_toList]
  rw [bytesOf, encoded, List.utf8Encode, List.data_toByteArray]

private theorem cons_lt_cons_of_lt {left right : Nat} (order : left < right) (bound : right < 256)
    (first second : List UInt8) : UInt8.ofNat left :: first < UInt8.ofNat right :: second := by
  apply List.Lex.rel
  rw [UInt8.lt_iff_toNat_lt, UInt8.toNat_ofNat', UInt8.toNat_ofNat']
  omega

private theorem cons_lt_cons_of_le {left right : Nat} (bound : right < 256) (order : left ≤ right)
    {first second : List UInt8} (rest : left = right → first < second) :
    UInt8.ofNat left :: first < UInt8.ofNat right :: second := by
  rcases Nat.lt_or_eq_of_le order with before | rfl
  · exact cons_lt_cons_of_lt before bound _ _
  · exact List.Lex.cons (rest rfl)

theorem utf8EncodeChar_append_lt {left right : Char} (order : left < right)
    (first second : List UInt8) :
    String.utf8EncodeChar left ++ first < String.utf8EncodeChar right ++ second := by
  have codes : left.val.toNat < right.val.toNat := UInt32.lt_iff_toNat_lt.1 order
  have bound : right.val.toNat < 0x110000 := by
    rcases right.valid with low | high
    · omega
    · exact high.2
  generalize hleft : left.val.toNat = l at codes
  generalize hright : right.val.toNat = r at codes bound
  unfold String.utf8EncodeChar
  simp only [hleft, hright]
  split_ifs
  -- A character with more bytes has a greater first byte, and so has one of a single byte.
  all_goals try exact cons_lt_cons_of_lt (by omega) (by omega) _ _
  -- What is left are characters with two, three or four bytes each.
  · refine cons_lt_cons_of_le (by omega) (by omega) fun _ => ?_
    exact cons_lt_cons_of_lt (by omega) (by omega) _ _
  · refine cons_lt_cons_of_le (by omega) (by omega) fun _ => ?_
    refine cons_lt_cons_of_le (by omega) (by omega) fun _ => ?_
    exact cons_lt_cons_of_lt (by omega) (by omega) _ _
  · refine cons_lt_cons_of_le (by omega) (by omega) fun _ => ?_
    refine cons_lt_cons_of_le (by omega) (by omega) fun _ => ?_
    refine cons_lt_cons_of_le (by omega) (by omega) fun _ => ?_
    exact cons_lt_cons_of_lt (by omega) (by omega) _ _

theorem flatMap_utf8EncodeChar_lt {left right : List Char} (order : left < right) :
    left.flatMap String.utf8EncodeChar < right.flatMap String.utf8EncodeChar := by
  induction order with
  | @nil next rest =>
    have nonempty : String.utf8EncodeChar next ≠ [] := String.utf8EncodeChar_ne_nil
    obtain ⟨byte, bytes, same⟩ := List.exists_cons_of_ne_nil nonempty
    rw [List.flatMap_cons, same]
    exact List.Lex.nil
  | @cons next left right order ih =>
    rw [List.flatMap_cons, List.flatMap_cons]
    exact List.append_left_lt ih
  | rel order =>
    rw [List.flatMap_cons, List.flatMap_cons]
    exact utf8EncodeChar_append_lt order _ _

/-- The order of strings is the order of their bytes. -/
theorem bytesOf_lt_iff {left right : String} : bytesOf left < bytesOf right ↔ left < right := by
  have forward {first second : String} (order : first < second) :
      bytesOf first < bytesOf second := by
    rw [bytesOf_eq_flatMap, bytesOf_eq_flatMap]
    exact flatMap_utf8EncodeChar_lt (String.lt_iff.1 order)
  constructor
  · intro bytes
    rcases lt_trichotomy left right with before | rfl | after
    · exact before
    · exact absurd bytes (List.lt_irrefl _)
    · exact absurd bytes (List.lt_asymm (forward after))
  · exact forward

end AnnotatedSource.Text
