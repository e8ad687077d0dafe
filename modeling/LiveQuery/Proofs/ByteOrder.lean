import Std.Data.ExtTreeMap
import Std.Data.TreeMap
import Mathlib.Data.String.Basic

/-!
# The order of names

Names are kept in the order of their code points. The bytes of their UTF-8 encodings are in the same
order: of two different characters the smaller one has the smaller byte where their encodings
differ first, and neither encoding goes on where the other ends.
-/

namespace LiveQuery

/-- The UTF-8 encoding of a name. -/
def utf8 (name : String) : List UInt8 := name.toUTF8.data.toList

lemma utf8_eq (name : String) : utf8 name = name.toList.flatMap String.utf8EncodeChar := by
  rw [utf8, String.toUTF8_eq_toByteArray, ← String.utf8Encode_toList, List.utf8Encode,
    List.data_toByteArray, List.toList_toArray]

lemma toNat_val_lt (c : Char) : c.val.toNat < 0x110000 := by
  obtain h | ⟨-, h⟩ := c.valid
  · exact Nat.lt_trans h (by decide)
  · exact h

/-- The encodings of two characters decide, whatever comes after them. -/
lemma encodeChar_lt {c d : Char} (h : c < d) (l m : List UInt8) :
    String.utf8EncodeChar c ++ l < String.utf8EncodeChar d ++ m := by
  have hval : c.val.toNat < d.val.toNat := h
  have hmax := toNat_val_lt d
  unfold String.utf8EncodeChar
  generalize c.val.toNat = v at hval
  generalize d.val.toNat = w at hval hmax
  dsimp only
  -- one case for each pair of lengths; the bytes are the digits of the code points to base 64
  split_ifs <;> simp (disch := omega) only [List.cons_append, List.nil_append,
    List.cons_lt_cons_iff, UInt8.lt_iff_toNat_lt, ← UInt8.toNat_inj, UInt8.toNat_ofNat',
    Nat.mod_eq_of_lt] <;> omega

lemma flatMap_encodeChar_lt {cs ds : List Char} (h : cs < ds) :
    cs.flatMap String.utf8EncodeChar < ds.flatMap String.utf8EncodeChar := by
  induction cs generalizing ds with
  | nil =>
    cases ds with
    | nil => simp at h
    | cons d ds =>
      obtain ⟨x, l, hx⟩ := List.exists_cons_of_ne_nil (String.utf8EncodeChar_ne_nil (c := d))
      simp [hx]
  | cons c cs ih =>
    cases ds with
    | nil => simp at h
    | cons d ds =>
      rw [List.flatMap_cons, List.flatMap_cons]
      obtain hcd | ⟨rfl, hrest⟩ := List.cons_lt_cons_iff.mp h
      · exact encodeChar_lt hcd _ _
      · exact List.append_left_lt (ih hrest)

theorem utf8_lt_iff {a b : String} : utf8 a < utf8 b ↔ a < b := by
  have hmono : ∀ {a b : String}, a < b → utf8 a < utf8 b := by
    intro a b h
    rw [utf8_eq, utf8_eq]
    exact flatMap_encodeChar_lt (String.lt_iff_toList_lt.mp h)
  refine ⟨fun h => ?_, hmono⟩
  rcases lt_trichotomy a b with hlt | rfl | hgt
  · exact hlt
  · exact absurd h (List.lt_irrefl _)
  · exact absurd (hmono hgt) (List.lt_asymm h)

/-- U+FFFF comes before U+10000, although its first UTF-16 unit is the greater one. -/
example : utf8 "\uffff" < utf8 "𐀀" := by decide

lemma compare_eq_lt_iff {a b : String} : compare a b = .lt ↔ utf8 a < utf8 b := by
  rw [utf8_lt_iff]
  exact compare_lt_iff_lt

/-- Whatever is kept by name is enumerated in the order of the bytes of the names. -/
lemma toList_ascending {β : Type} (m : Std.ExtTreeMap String β) :
    m.toList.Pairwise fun e f => utf8 e.1 < utf8 f.1 :=
  m.ordered_keys_toList.imp compare_eq_lt_iff.mp

end LiveQuery
