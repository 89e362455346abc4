import Mathlib.Data.List.Basic

/-!
# Cutting a text

A text that is cut to a number of bytes keeps its whole characters: `cut n text` is the longest
start of `text` that has at most `n` bytes (`isCut_cut`). When the bytes of a text are cut instead,
its last character may be cut apart. What is left of it decodes as no character, whatever other
character comes after it (`utf8DecodeChar?_extract_append`).
-/

namespace BootLoader.Text

/-- The longest start of some characters that has at most `n` bytes. -/
def cutChars : Nat → List Char → List Char
  | _, [] => []
  | n, c :: cs => if c.utf8Size ≤ n then c :: cutChars (n - c.utf8Size) cs else []

/-- The longest start of a text that has at most `n` bytes. -/
def cut (n : Nat) (text : String) : String := String.ofList (cutChars n text.toList)

/-- Whether `p` is the longest start of a text that has at most `n` bytes. -/
structure IsCut (n : Nat) (text p : String) : Prop where
  /-- it is a start of the text, in whole characters -/
  isStart : ∃ rest, text = p ++ rest
  /-- it has at most `n` bytes -/
  size_le : p.utf8ByteSize ≤ n
  /-- every start of the text with at most `n` bytes is a start of it -/
  longest : ∀ q rest, text = q ++ rest → q.utf8ByteSize ≤ n → ∃ more, p = q ++ more

/-! ## Bytes of characters -/

/-- A character has as many bytes as its size says. -/
theorem size_utf8Encode_singleton (c : Char) : [c].utf8Encode.size = c.utf8Size := by
  rw [List.utf8Encode_singleton, List.size_toByteArray, String.length_utf8EncodeChar]

/-- The bytes of characters are those of the first and of the others. -/
theorem size_utf8Encode_cons (c : Char) (cs : List Char) :
    (c :: cs).utf8Encode.size = c.utf8Size + cs.utf8Encode.size := by
  rw [List.utf8Encode_cons, ByteArray.size_append, size_utf8Encode_singleton]

/-- The size of a text is that of its characters. -/
theorem size_utf8Encode_toList (text : String) :
    text.toList.utf8Encode.size = text.utf8ByteSize := by
  rw [String.utf8Encode_toList, String.size_toByteArray]

/-! ## Whole characters -/

/-- Cut characters are the first ones. -/
theorem cutChars_isStart (n : Nat) (cs : List Char) : cutChars n cs <+: cs := by
  induction cs generalizing n with
  | nil => exact List.nil_prefix
  | cons c cs ih =>
    unfold cutChars
    split_ifs
    · exact (List.prefix_cons_inj c).mpr (ih _)
    · exact List.nil_prefix

/-- Cut characters fit. -/
theorem size_cutChars_le (n : Nat) (cs : List Char) : (cutChars n cs).utf8Encode.size ≤ n := by
  induction cs generalizing n with
  | nil => exact Nat.zero_le n
  | cons c cs ih =>
    unfold cutChars
    split_ifs with hfits
    · have htail := ih (n - c.utf8Size)
      rw [size_utf8Encode_cons]
      omega
    · exact Nat.zero_le n

/-- All first characters that fit are among the cut ones. -/
theorem prefix_cutChars {n : Nat} {qs cs : List Char} (h : qs <+: cs)
    (hsize : qs.utf8Encode.size ≤ n) : qs <+: cutChars n cs := by
  induction cs generalizing n qs with
  | nil =>
    obtain rfl := List.prefix_nil.mp h
    exact List.nil_prefix
  | cons c cs ih =>
    cases qs with
    | nil => exact List.nil_prefix
    | cons q qs =>
      obtain ⟨rfl, htail⟩ := List.cons_prefix_cons.mp h
      rw [size_utf8Encode_cons] at hsize
      unfold cutChars
      rw [if_pos (by omega)]
      exact (List.prefix_cons_inj q).mpr (ih htail (by omega))

/-- A text is cut to its longest start that fits. -/
theorem isCut_cut (n : Nat) (text : String) : IsCut n text (cut n text) where
  isStart := by
    obtain ⟨rest, hrest⟩ := cutChars_isStart n text.toList
    exact ⟨String.ofList rest, by rw [cut, ← String.ofList_append, hrest, String.ofList_toList]⟩
  size_le := by
    rw [← size_utf8Encode_toList, cut, String.toList_ofList]
    exact size_cutChars_le n text.toList
  longest := by
    rintro q rest rfl hsize
    rw [← size_utf8Encode_toList] at hsize
    obtain ⟨more, hmore⟩ : q.toList <+: cutChars n (q ++ rest).toList :=
      prefix_cutChars (by simp) hsize
    refine ⟨String.ofList more, ?_⟩
    rw [cut, ← hmore, String.ofList_append, String.ofList_toList]

/-- A start that fits is kept, and what comes after it is cut to the bytes that are left. -/
theorem cutChars_append {n : Nat} {ps : List Char} (h : ps.utf8Encode.size ≤ n) (cs : List Char) :
    cutChars n (ps ++ cs) = ps ++ cutChars (n - ps.utf8Encode.size) cs := by
  induction ps generalizing n with
  | nil => rfl
  | cons c ps ih =>
    rw [size_utf8Encode_cons] at h ⊢
    rw [List.cons_append, List.cons_append, cutChars, if_pos (by omega), ih (by omega),
      Nat.sub_sub]

/-- A start of a text that fits is kept. -/
theorem cut_append {n : Nat} {p : String} (h : p.utf8ByteSize ≤ n) (text : String) :
    cut n (p ++ text) = p ++ cut (n - p.utf8ByteSize) text := by
  rw [← size_utf8Encode_toList] at h ⊢
  rw [cut, String.toList_append, cutChars_append h, String.ofList_append, String.ofList_toList]
  rfl

/-! ## Characters that are cut apart -/

/-- No other character begins with the same bytes. -/
theorem not_extract_eq {c d : Char} (hd : d.utf8Size < c.utf8Size) :
    [d].utf8Encode ≠ [c].utf8Encode.extract 0 d.utf8Size := by
  intro heq
  have hwhole : [d].utf8Encode ++ [c].utf8Encode.extract d.utf8Size [c].utf8Encode.size =
      [c].utf8Encode := by
    rw [heq, ← ByteArray.extract_eq_extract_append_extract _ (Nat.zero_le _)
      (by rw [size_utf8Encode_singleton]; omega), ByteArray.extract_zero_size]
  obtain rfl : d = c := by
    simpa using List.isPrefix_of_utf8Encode_append_eq_utf8Encode _ hwhole
  exact Nat.lt_irrefl _ hd

/-- The first bytes of a character decode as no character, when a new character or nothing comes
after them: it would end within these bytes, or have a first byte in the middle. -/
theorem utf8DecodeChar?_extract_append {c : Char} {k : Nat} (hpos : 0 < k) (hk : k < c.utf8Size)
    {b : ByteArray} (hb : ∀ h : 0 < b.size, b[0].IsUTF8FirstByte) :
    ([c].utf8Encode.extract 0 k ++ b).utf8DecodeChar? 0 = none := by
  rw [Option.eq_none_iff_forall_ne_some]
  intro d hd
  obtain ⟨l, hl⟩ := ByteArray.exists_of_utf8DecodeChar?_eq_some hd
  rw [← List.utf8Encode_singleton] at hl
  have hsize : ([c].utf8Encode.extract 0 k).size = k := by
    rw [ByteArray.size_extract, size_utf8Encode_singleton]
    omega
  have hdsize := size_utf8Encode_singleton d
  by_cases hle : d.utf8Size ≤ k
  · -- `d` would have all its bytes among the first bytes of `c`
    have hstart : [d].utf8Encode = [c].utf8Encode.extract 0 d.utf8Size := by
      rw [← ByteArray.extract_append_eq_left (b := l) hdsize.symm, ← hl, ByteArray.extract_append,
        hsize, Nat.sub_eq_zero_of_le hle, Nat.zero_sub, ByteArray.extract_same,
        ByteArray.append_empty, ByteArray.extract_extract]
      simp [Nat.min_eq_left hle]
    exact not_extract_eq (by omega) hstart
  · -- the byte after them would be in the middle of `d`, where no character begins
    have hbsize : 0 < b.size := by
      have hsizes := ByteArray.le_size_of_utf8DecodeChar?_eq_some hd
      rw [ByteArray.size_append, hsize] at hsizes
      omega
    have hkd : k < [d].utf8Encode.size := by omega
    have hbyte : [d].utf8Encode[k] = b[0] := by
      rw [← ByteArray.getElem_append_left (b := l) (h := by rw [ByteArray.size_append]; omega)]
      simp only [← hl]
      rw [ByteArray.getElem_append_right (by omega)]
      simp only [hsize, Nat.sub_self]
    have hfirst := hb hbsize
    rw [← hbyte, List.isUTF8FirstByte_getElem_utf8Encode_singleton] at hfirst
    omega

end BootLoader.Text
