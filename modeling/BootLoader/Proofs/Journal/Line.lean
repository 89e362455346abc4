import BootLoader.Journal.Line
import BootLoader.Proofs.Text.Cut

/-!
# What a line shows

A line buffer keeps the first bytes of what is written to it, in however many pieces it comes
(`LineBuffer.foldl_write`). Read as text, these bytes are the longest start of it in whole
characters, and whatever comes after a character that is cut apart is lost with it
(`charsFrom_extract_append`). So a record is shown on a complete line unless a character is cut
apart to make room for the line end, which is then not shown either (`Record.shows_line`).
-/

namespace BootLoader.Journal

open BootLoader.Text (cut cutChars IsCut isCut_cut cut_append utf8DecodeChar?_extract_append
  size_utf8Encode_singleton size_utf8Encode_cons size_utf8Encode_toList)

/-! ## Reading characters -/

/-- A character is decoded whatever the bytes before it are. -/
theorem utf8DecodeChar?_append (a b : ByteArray) (i : Nat) :
    (a ++ b).utf8DecodeChar? (a.size + i) = b.utf8DecodeChar? i := by
  rw [ByteArray.utf8DecodeChar?_eq_utf8DecodeChar?_extract, ByteArray.size_append,
    ByteArray.extract_append_size_add, ← ByteArray.utf8DecodeChar?_eq_utf8DecodeChar?_extract]

/-- What is read does not depend on the bytes before it. -/
theorem charsFrom_append (a b : ByteArray) (i : Nat) :
    charsFrom (a ++ b) (a.size + i) = charsFrom b i := by
  have hsize := ByteArray.size_append (a := a) (b := b)
  fun_induction charsFrom b i with
  | case1 i hi hnone =>
    rw [charsFrom, dif_pos (by omega), utf8DecodeChar?_append, hnone]
  | case2 i hi c hsome ih =>
    rw [charsFrom, dif_pos (by omega), utf8DecodeChar?_append, hsome]
    simp only [Nat.add_assoc, ih]
  | case3 i hi => rw [charsFrom, dif_neg (by omega)]

/-- A whole character is read before what comes after it. -/
theorem charsFrom_cons (c : Char) (b : ByteArray) :
    charsFrom ([c].utf8Encode ++ b) 0 = c :: charsFrom b 0 := by
  have hpos := c.utf8Size_pos
  have hsize := size_utf8Encode_singleton c
  rw [charsFrom, dif_pos (by rw [ByteArray.size_append]; omega),
    List.utf8DecodeChar?_utf8Encode_singleton_append]
  simp only [Nat.zero_add, ← hsize]
  rw [← charsFrom_append [c].utf8Encode b 0, Nat.add_zero]

/-- From nothing, nothing is read. -/
theorem charsFrom_empty : charsFrom ByteArray.empty 0 = [] := by
  rw [charsFrom]
  rfl

/-- Nothing is read from bytes that begin with no character. -/
theorem charsFrom_of_none {b : ByteArray} (h : b.utf8DecodeChar? 0 = none) :
    charsFrom b 0 = [] := by
  rw [charsFrom, h]
  split_ifs <;> rfl

/-- The first bytes of an array are all of it when it has no more. -/
theorem extract_of_size_le {a : ByteArray} {n : Nat} (h : a.size ≤ n) : a.extract 0 n = a := by
  rw [← Nat.max_eq_left h, ByteArray.extract_zero_max_size]

/-- The first `n` bytes of characters are read as the whole characters among them. What comes after
these bytes is read only if they end with a whole character, where it begins with a first byte. -/
theorem charsFrom_extract_append (n : Nat) (cs : List Char) {b : ByteArray}
    (hb : ∀ h : 0 < b.size, b[0].IsUTF8FirstByte) :
    charsFrom (cs.utf8Encode.extract 0 n ++ b) 0 = cutChars n cs ++
      if cs.utf8Encode.size ≤ n ∨ (cutChars n cs).utf8Encode.size = n then charsFrom b 0
      else [] := by
  induction cs generalizing n with
  | nil => simp [cutChars, extract_of_size_le]
  | cons c cs ih =>
    have hsize := size_utf8Encode_singleton c
    rw [List.utf8Encode_cons, ByteArray.extract_append, hsize, Nat.zero_sub, cutChars]
    by_cases hfits : c.utf8Size ≤ n
    · -- the character is whole, and the others are cut to the bytes that are left
      rw [if_pos hfits, extract_of_size_le (by omega), ByteArray.append_assoc, charsFrom_cons, ih,
        List.cons_append, ByteArray.size_append, hsize, size_utf8Encode_cons]
      have hiff : c.utf8Size + cs.utf8Encode.size ≤ n ∨
          c.utf8Size + (cutChars (n - c.utf8Size) cs).utf8Encode.size = n ↔
          cs.utf8Encode.size ≤ n - c.utf8Size ∨
            (cutChars (n - c.utf8Size) cs).utf8Encode.size = n - c.utf8Size := by
        omega
      rw [if_congr hiff rfl rfl]
    · rw [if_neg hfits, Nat.sub_eq_zero_of_le (by omega), ByteArray.extract_same,
        ByteArray.append_empty, List.nil_append, ByteArray.size_append, hsize]
      by_cases hnone : n = 0
      · simp [hnone]
      · rw [if_neg (by simp; omega)]
        exact charsFrom_of_none (utf8DecodeChar?_extract_append (by omega) (by omega) hb)

/-! ## Writing -/

namespace LineBuffer

/-- The bytes of a buffer after a text: as many as there is room for. -/
theorem size_write (b : LineBuffer) (text : String) : (b.write text).bytes.size =
    b.bytes.size + min (lineSize - b.bytes.size) text.utf8ByteSize := by
  unfold write String.toUTF8
  rw [ByteArray.size_append, ByteArray.size_extract, String.size_toByteArray, Nat.sub_zero]

/-- The empty buffer keeps the first bytes of a text. -/
theorem bytes_write_empty (text : String) :
    (empty.write text).bytes = text.toByteArray.extract 0 lineSize :=
  ByteArray.empty_append

/-- From the empty buffer, the longest start of a text that fits is read. -/
theorem text_write_empty (text : String) : (empty.write text).text = cut lineSize text := by
  have hbytes : (empty.write text).bytes =
      text.toList.utf8Encode.extract 0 lineSize ++ ByteArray.empty := by
    rw [bytes_write_empty, String.utf8Encode_toList, ByteArray.append_empty]
  rw [LineBuffer.text, hbytes, charsFrom_extract_append _ _ (by decide), charsFrom_empty, ite_self,
    List.append_nil, cut]

/-- Two texts are written like one. -/
theorem write_write (b : LineBuffer) (s t : String) : (b.write s).write t = b.write (s ++ t) := by
  have hroom : lineSize - (b.write s).bytes.size =
      lineSize - b.bytes.size - s.toByteArray.size := by
    rw [size_write, String.size_toByteArray]
    omega
  rw [write.eq_1 (b.write s), hroom]
  unfold write String.toUTF8
  rw [String.toByteArray_append, ByteArray.extract_append, ByteArray.append_assoc, Nat.zero_sub]

/-- A text is written like its pieces, one after the other. -/
theorem foldl_write (b : LineBuffer) (pieces : List String) :
    pieces.foldl write b = b.write (String.join pieces) := by
  induction pieces generalizing b with
  | nil =>
    unfold write
    simp [String.toUTF8, extract_of_size_le]
  | cons s pieces ih => rw [List.foldl_cons, ih, write_write, String.join_cons]

/-- A record leaves the bytes of its heading that fit beside the line end, and the line end. -/
theorem bytes_writeRecord (r : Record) : (empty.writeRecord r).bytes =
    r.heading.toByteArray.extract 0 (lineSize - 1) ++ "\n".toByteArray := by
  have hroom : (empty.write r.heading).makeRoom.bytes =
      r.heading.toByteArray.extract 0 (lineSize - 1) := by
    unfold makeRoom isFull
    rw [bytes_write_empty, ByteArray.size_extract]
    split_ifs with hfull
    · rw [ByteArray.extract_extract]
      rfl
    · have hshort : r.heading.toByteArray.size ≤ lineSize - 1 := by
        simp only [beq_iff_eq] at hfull
        unfold lineSize at hfull ⊢
        omega
      rw [bytes_write_empty, extract_of_size_le hshort, extract_of_size_le (by omega)]
  have hend : "\n".toByteArray.size = 1 := rfl
  have hsize : (r.heading.toByteArray.extract 0 (lineSize - 1)).size ≤ lineSize - 1 := by
    rw [ByteArray.size_extract]
    omega
  have hpos : 0 < lineSize := by decide
  unfold writeRecord
  rw [write.eq_1, hroom]
  unfold String.toUTF8
  rw [extract_of_size_le (a := "\n".toByteArray) (by omega)]

end LineBuffer

/-! ## Complete lines -/

/-- A line end is read as such. -/
theorem charsFrom_lineEnd : charsFrom "\n".toByteArray 0 = ['\n'] := by
  have hbytes : "\n".toByteArray = ['\n'].utf8Encode ++ ByteArray.empty := by
    rw [ByteArray.append_empty, ← String.utf8Encode_toList]
    rfl
  rw [hbytes, charsFrom_cons, charsFrom_of_none (by rfl)]

namespace Record

/-- A record is shown as the longest start of its heading that fits beside the line end. The line
end follows it unless a character is cut apart to make room for it. -/
theorem line_eq (r : Record) : r.line = cut (lineSize - 1) r.heading ++
    if r.heading.utf8ByteSize < lineSize ∨
      (cut (lineSize - 1) r.heading).utf8ByteSize = lineSize - 1 then "\n" else "" := by
  have hiff : r.heading.toList.utf8Encode.size ≤ lineSize - 1 ∨
      (cutChars (lineSize - 1) r.heading.toList).utf8Encode.size = lineSize - 1 ↔
      r.heading.utf8ByteSize < lineSize ∨
        (cut (lineSize - 1) r.heading).utf8ByteSize = lineSize - 1 := by
    rw [size_utf8Encode_toList, ← size_utf8Encode_toList (cut _ _), cut, String.toList_ofList]
    unfold lineSize
    omega
  unfold line LineBuffer.text
  rw [LineBuffer.bytes_writeRecord, ← String.utf8Encode_toList,
    charsFrom_extract_append _ _ (by decide), charsFrom_lineEnd, if_congr hiff rfl rfl,
    String.ofList_append]
  split_ifs <;> rfl

/-- What is shown of a record, where `kept` is the longest start of its heading that fits beside the
line end. -/
structure Shows (r : Record) (kept : String) : Prop where
  /-- this is the longest such start, in whole characters -/
  isCut : IsCut (lineSize - 1) r.heading kept
  /-- the line is complete exactly when nothing is cut off, or whole characters fill the room -/
  complete_iff : r.line = kept ++ "\n" ↔
    r.heading.utf8ByteSize < lineSize ∨ kept.utf8ByteSize = lineSize - 1
  /-- otherwise it has no end, so that the next line goes on with it -/
  unended : ¬(r.heading.utf8ByteSize < lineSize ∨ kept.utf8ByteSize = lineSize - 1) →
    r.line = kept
  /-- it does not matter in which pieces the heading is written -/
  pieces : ∀ pieces, String.join pieces = r.heading →
    ((pieces.foldl LineBuffer.write .empty).makeRoom.write "\n").text = r.line

/-- A line end is no empty text. -/
theorem ne_append_lineEnd (text : String) : text ≠ text ++ "\n" := by
  intro h
  have hsize := congrArg String.utf8ByteSize h
  have hend : "\n".utf8ByteSize = 1 := rfl
  rw [String.utf8ByteSize_append] at hsize
  omega

/-- A record is shown on a complete line exactly when no character is cut apart to make room for the
line end. -/
theorem shows_line (r : Record) : r.Shows (cut (lineSize - 1) r.heading) := by
  have hline := r.line_eq
  have hcut := isCut_cut (lineSize - 1) r.heading
  generalize cut (lineSize - 1) r.heading = kept at hline hcut ⊢
  have hunended : ¬(r.heading.utf8ByteSize < lineSize ∨ kept.utf8ByteSize = lineSize - 1) →
      r.line = kept := by
    intro hother
    rw [hline, if_neg hother, String.append_empty]
  exact
    { isCut := hcut
      complete_iff := by
        constructor
        · intro hcomplete
          by_contra hother
          exact ne_append_lineEnd kept ((hunended hother).symm.trans hcomplete)
        · intro hwhole
          rw [hline, if_pos hwhole]
      unended := hunended
      pieces := fun pieces hpieces => by
        rw [LineBuffer.foldl_write, hpieces]
        rfl }

/-- The first 254 bytes of a line. -/
def longStart : String := "[lode]  INFO t: " ++ String.ofList (List.replicate 238 'x')

/-- A record whose last character has two bytes, of which only the first fits beside the line
end. -/
def splitRecord : Record where
  level := .info
  target := "t"
  text := String.ofList (List.replicate 238 'x') ++ "\u00e9"

/-- Not every record is shown on a complete line: the last character of this one is cut apart, and
the line end is lost with it. -/
theorem not_all_complete : ¬∀ (r : Record) (kept : String),
    IsCut (lineSize - 1) r.heading kept → r.line = kept ++ "\n" := by
  intro h
  have hcomplete := h splitRecord _ (isCut_cut (lineSize - 1) splitRecord.heading)
  have hheading : splitRecord.heading = longStart ++ "\u00e9" := by decide +kernel
  have hsize : longStart.utf8ByteSize = 254 := by decide +kernel
  have hcut : cut (lineSize - 1) splitRecord.heading = longStart := by
    rw [hheading, cut_append (by rw [hsize]; decide), hsize]
    exact String.append_empty
  have hother : ¬(splitRecord.heading.utf8ByteSize < lineSize ∨
      (cut (lineSize - 1) splitRecord.heading).utf8ByteSize = lineSize - 1) := by
    rw [hcut, hsize]
    decide +kernel
  rw [line_eq, if_neg hother, String.append_empty] at hcomplete
  exact ne_append_lineEnd _ hcomplete

end Record

end BootLoader.Journal
