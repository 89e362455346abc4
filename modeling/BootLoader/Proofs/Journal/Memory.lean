import BootLoader.Address
import BootLoader.Failure
import BootLoader.Proofs.Journal.Line
import Mathlib.Data.Nat.Find

/-!
# Lines in memory

A line buffer lives in memory of fixed size, of which a number of bytes is in use. A write copies the
bytes of a text that there is room for behind those in use; every index, sum and difference on the way
may fault. None does, and memory holds the buffer as before (`LineMemory.Holds.write`,
`LineMemory.Holds.writes`). The text is that of the valid bytes, which are those of the characters that
are read one by one (`validUpTo_eq`, `LineMemory.Holds.text`). So whatever is written to a buffer, and
in whatever pieces, the longest start of it that fits is shown (`LineMemory.collects_writes`).
-/

namespace BootLoader.Journal

open BootLoader.Text (IsCut isCut_cut size_utf8Encode_singleton)

/-! ## Bytes -/

/-- The difference of two words, which has to be one. -/
def difference (a b : Nat) : Except Fault Nat := if b ≤ a then .ok (a - b) else .error .overflow

/-- The sum of two words, which has to be one. -/
def sum (a b : Nat) : Except Fault Nat := if a + b < wordCount then .ok (a + b) else .error .overflow

/-- The bytes from `start` up to `stop`, which have to be there. -/
def slice (bytes : ByteArray) (start stop : Nat) : Except Fault ByteArray :=
  if start ≤ stop ∧ stop ≤ bytes.size then .ok (bytes.extract start stop)
  else .error .indexOutOfRange

/-- All bytes, with those from `start` up to `stop`, which have to be there, replaced by as many
others. -/
def replace (bytes : ByteArray) (start stop : Nat) (others : ByteArray) : Except Fault ByteArray :=
  if start ≤ stop ∧ stop ≤ bytes.size ∧ others.size = stop - start then
    .ok (bytes.extract 0 start ++ others ++ bytes.extract stop bytes.size)
  else .error .indexOutOfRange

/-- How many bytes are valid as a text: the largest number of first ones that are. -/
def validUpTo (bytes : ByteArray) : Nat :=
  Nat.findGreatest (fun n => (bytes.extract 0 n).IsValidUTF8) bytes.size

/-- There are no more first bytes than bytes. -/
theorem extract_min (bytes : ByteArray) (n : Nat) :
    bytes.extract 0 (min bytes.size n) = bytes.extract 0 n := by
  rcases Nat.le_total bytes.size n with hle | hle
  · rw [Nat.min_eq_left hle, extract_of_size_le (Nat.le_refl _), extract_of_size_le hle]
  · rw [Nat.min_eq_right hle]

/-! ## Valid bytes -/

/-- Characters are the text of their bytes. -/
theorem fromUTF8?_utf8Encode (cs : List Char) :
    String.fromUTF8? cs.utf8Encode = some (String.ofList cs) :=
  dif_pos ⟨cs, rfl⟩

/-- Whole characters are read before what comes after them. -/
theorem charsFrom_utf8Encode_append (cs : List Char) (rest : ByteArray) :
    charsFrom (cs.utf8Encode ++ rest) 0 = cs ++ charsFrom rest 0 := by
  induction cs with
  | nil => rw [List.utf8Encode_nil, ByteArray.empty_append, List.nil_append]
  | cons c cs ih =>
    rw [List.utf8Encode_cons, ByteArray.append_assoc, charsFrom_cons, ih, List.cons_append]

/-- All characters are read from their bytes. -/
theorem charsFrom_utf8Encode (cs : List Char) : charsFrom cs.utf8Encode 0 = cs := by
  have h := charsFrom_utf8Encode_append cs ByteArray.empty
  rwa [ByteArray.append_empty, charsFrom_empty, List.append_nil] at h

/-- The characters that are read are those of the first bytes. -/
theorem exists_utf8Encode_append (bytes : ByteArray) :
    ∃ rest, bytes = (charsFrom bytes 0).utf8Encode ++ rest := by
  -- by induction on the number of bytes, of which the first character takes some away
  induction hsize : bytes.size using Nat.strong_induction_on generalizing bytes with
  | _ size ih =>
    cases hfirst : bytes.utf8DecodeChar? 0 with
    | none => exact ⟨bytes, by rw [charsFrom_of_none hfirst]; simp⟩
    | some c =>
      obtain ⟨tail, htail⟩ := ByteArray.exists_of_utf8DecodeChar?_eq_some hfirst
      rw [← List.utf8Encode_singleton] at htail
      have hless : tail.size < size := by
        have := c.utf8Size_pos
        rw [← hsize, htail, ByteArray.size_append, size_utf8Encode_singleton]
        omega
      obtain ⟨rest, hrest⟩ := ih tail.size hless tail rfl
      refine ⟨rest, ?_⟩
      calc bytes
        _ = [c].utf8Encode ++ ((charsFrom tail 0).utf8Encode ++ rest) := by rw [← hrest, htail]
        _ = (c :: charsFrom tail 0).utf8Encode ++ rest := by
          rw [← ByteArray.append_assoc, ← List.utf8Encode_cons]
        _ = (charsFrom bytes 0).utf8Encode ++ rest := by rw [htail, charsFrom_cons]

/-- As many first bytes as the characters that are read have are their bytes. -/
theorem extract_charsFrom (bytes : ByteArray) :
    bytes.extract 0 (charsFrom bytes 0).utf8Encode.size = (charsFrom bytes 0).utf8Encode := by
  obtain ⟨rest, hrest⟩ := exists_utf8Encode_append bytes
  generalize charsFrom bytes 0 = cs at hrest ⊢
  rw [hrest]
  exact ByteArray.extract_append_eq_left rfl

/-- The valid bytes are those of the characters that are read. -/
theorem validUpTo_eq (bytes : ByteArray) :
    validUpTo bytes = (charsFrom bytes 0).utf8Encode.size := by
  have hstart := extract_charsFrom bytes
  refine Nat.findGreatest_eq_iff.mpr ⟨?_, fun _ => ⟨_, hstart⟩, fun n hlt hle hvalid => ?_⟩
  · have hsize := congrArg ByteArray.size hstart
    rw [ByteArray.size_extract] at hsize
    omega
  · -- all characters of a longer valid start would have been read
    obtain ⟨cs, hcs⟩ := hvalid
    have hsize : cs.utf8Encode.size = n := by
      rw [← hcs, ByteArray.size_extract]
      omega
    have hread : charsFrom bytes 0 = cs ++ charsFrom (bytes.extract n bytes.size) 0 := by
      rw [← charsFrom_utf8Encode_append, ← hcs,
        ← ByteArray.extract_eq_extract_append_extract n (Nat.zero_le n) hle,
        ByteArray.extract_zero_size]
    rw [hread, List.utf8Encode_append, ByteArray.size_append, hsize] at hlt
    omega

/-! ## Memory for a line -/

/-- Memory for a line. -/
structure LineMemory where
  /-- its bytes -/
  data : ByteArray
  /-- how many of them are in use, from the first one on -/
  used : Nat

namespace LineMemory

/-- The memory before anything is written. -/
def empty : LineMemory := ⟨⟨Array.replicate lineSize 0⟩, 0⟩

/-- The memory with as many bytes of `text` as there is room for behind those in use. -/
def write (m : LineMemory) (text : String) : Except Fault LineMemory := do
  let room ← difference lineSize m.used
  let count := min text.utf8ByteSize room
  let stop ← sum m.used count
  let data ← replace m.data m.used stop (← slice text.toUTF8 0 count)
  return { data, used := stop }

/-- The text of the bytes in use, as far as they are valid. -/
def text (m : LineMemory) : Except Fault String := do
  let bytes ← slice m.data 0 m.used
  match String.fromUTF8? bytes with
  | some text => return text
  | none => return (String.fromUTF8? (← slice m.data 0 (validUpTo bytes))).getD ""

/-- Whether memory holds a buffer. -/
structure Holds (m : LineMemory) (b : LineBuffer) : Prop where
  /-- it has the size of a line -/
  size_eq : m.data.size = lineSize
  /-- no more of it is in use than there is -/
  used_le : m.used ≤ lineSize
  /-- the bytes in use are those of the buffer -/
  bytes_eq : m.data.extract 0 m.used = b.bytes

variable {m : LineMemory} {b : LineBuffer}

/-- As many bytes are in use as the buffer has. -/
theorem Holds.used_eq (h : m.Holds b) : m.used = b.bytes.size := by
  have hsize := h.size_eq
  have hused := h.used_le
  rw [← h.bytes_eq, ByteArray.size_extract]
  omega

/-- Memory in which nothing is in use holds the empty buffer. -/
theorem holds_empty : empty.Holds LineBuffer.empty where
  size_eq := Array.size_replicate
  used_le := Nat.zero_le _
  bytes_eq := by rw [empty, ByteArray.extract_same]; rfl

/-- A write succeeds. It leaves the bytes in use, behind them those of the text that there is room
for, and then what was there before. -/
theorem Holds.write_eq (h : m.Holds b) (text : String) {count : Nat}
    (hcount : count = min text.utf8ByteSize (lineSize - m.used)) : m.write text =
      .ok { data := m.data.extract 0 m.used ++ text.toUTF8.extract 0 count ++
              m.data.extract (m.used + count) m.data.size
            used := m.used + count } := by
  have hsize := h.size_eq
  have hused := h.used_le
  have htext : text.toUTF8.size = text.utf8ByteSize := String.size_toByteArray
  have hroom : difference lineSize m.used = .ok (lineSize - m.used) := if_pos hused
  have hstop : sum m.used count = .ok (m.used + count) :=
    if_pos (Nat.lt_of_le_of_lt (by omega : m.used + count ≤ lineSize) (by decide))
  have hsource : slice text.toUTF8 0 count = .ok (text.toUTF8.extract 0 count) :=
    if_pos (by omega)
  have hreplace : replace m.data m.used (m.used + count) (text.toUTF8.extract 0 count) =
      .ok (m.data.extract 0 m.used ++ text.toUTF8.extract 0 count ++
        m.data.extract (m.used + count) m.data.size) :=
    if_pos (by rw [ByteArray.size_extract]; omega)
  simp only [LineMemory.write, bind, Except.bind, hroom, ← hcount, hstop, hsource, hreplace, pure,
    Except.pure]

/-- A write succeeds, and memory then holds the buffer after it. -/
theorem Holds.write (h : m.Holds b) (text : String) :
    ∃ m', m.write text = .ok m' ∧ m'.Holds (b.write text) := by
  have hsize := h.size_eq
  have hused := h.used_le
  have htext : text.toUTF8.size = text.utf8ByteSize := String.size_toByteArray
  obtain ⟨count, hcount⟩ : ∃ count, count = min text.utf8ByteSize (lineSize - m.used) := ⟨_, rfl⟩
  refine ⟨_, h.write_eq text hcount, ?_⟩
  -- the first two parts are what is in use afterwards
  have hfront : (m.data.extract 0 m.used ++ text.toUTF8.extract 0 count).size = m.used + count := by
    rw [ByteArray.size_append, ByteArray.size_extract, ByteArray.size_extract]
    omega
  exact
    { size_eq := by
        rw [ByteArray.size_append, hfront, ByteArray.size_extract]
        omega
      used_le := by
        show m.used + count ≤ lineSize
        omega
      bytes_eq := by
        show ByteArray.extract _ 0 (m.used + count) = _
        rw [ByteArray.extract_append_eq_left hfront.symm, h.bytes_eq, hcount, ← htext, extract_min,
          h.used_eq]
        rfl }

/-- Writes succeed, and memory then holds the buffer after them. -/
theorem Holds.writes (h : m.Holds b) (pieces : List String) :
    ∃ m', pieces.foldlM LineMemory.write m = .ok m' ∧ m'.Holds (pieces.foldl LineBuffer.write b) := by
  induction pieces generalizing m b with
  | nil => exact ⟨m, rfl, h⟩
  | cons text pieces ih =>
    obtain ⟨next, hnext, hholds⟩ := h.write text
    obtain ⟨last, hlast, hheld⟩ := ih hholds
    refine ⟨last, ?_, hheld⟩
    rw [List.foldlM_cons, hnext]
    exact hlast

/-- Memory that holds a buffer shows its text. -/
theorem Holds.text (h : m.Holds b) : m.text = .ok b.text := by
  have hsize := h.size_eq
  have hused := h.used_le
  have hbytes : slice m.data 0 m.used = .ok b.bytes := by
    rw [← h.bytes_eq]
    exact if_pos (by omega)
  by_cases hvalid : b.bytes.IsValidUTF8
  · obtain ⟨cs, hcs⟩ := hvalid
    have htext : String.fromUTF8? b.bytes = some b.text := by
      rw [LineBuffer.text, hcs, fromUTF8?_utf8Encode, charsFrom_utf8Encode]
    simp only [LineMemory.text, bind, Except.bind, hbytes, htext, pure, Except.pure]
  · have hnone : String.fromUTF8? b.bytes = none := dif_neg hvalid
    have hle : validUpTo b.bytes ≤ m.used := by
      rw [h.used_eq]
      exact Nat.findGreatest_le _
    -- the valid bytes are a text again, so the second reading succeeds
    have hstart : slice m.data 0 (validUpTo b.bytes) = .ok (charsFrom b.bytes 0).utf8Encode := by
      have hread := extract_charsFrom b.bytes
      rw [← validUpTo_eq] at hread
      rw [← hread]
      generalize validUpTo b.bytes = valid at hle ⊢
      rw [slice, if_pos (by omega), ← h.bytes_eq, ByteArray.extract_extract, Nat.zero_add,
        Nat.zero_add, Nat.min_eq_left hle]
    simp only [LineMemory.text, bind, Except.bind, hbytes, hnone, hstart, fromUTF8?_utf8Encode,
      Option.getD_some, pure, Except.pure]
    rfl

/-! ## Texts in pieces -/

/-- What memory and the buffer in it have collected of `pieces` that were written one after the
other. -/
structure Collects (pieces : List String) (m : LineMemory) (b : LineBuffer) : Prop where
  /-- memory holds the buffer -/
  holds : m.Holds b
  /-- as many bytes are in use as were written, if there is room for them -/
  used_eq : m.used = min (String.join pieces).utf8ByteSize lineSize
  /-- they are the first ones that were written -/
  bytes_eq : m.data.extract 0 m.used = (String.join pieces).toUTF8.extract 0 m.used
  /-- they are shown without a fault, as the text of the buffer -/
  text_eq : m.text = .ok b.text
  /-- the text is the longest start of what was written that fits, in whole characters -/
  isCut : IsCut lineSize (String.join pieces) b.text

/-- Whatever is written to an empty buffer, and in whatever pieces, every write succeeds, and the
longest start of it that fits is shown. -/
theorem collects_writes (pieces : List String) :
    ∃ m, pieces.foldlM LineMemory.write empty = .ok m ∧
      Collects pieces m (pieces.foldl LineBuffer.write LineBuffer.empty) := by
  obtain ⟨m, hm, hholds⟩ := holds_empty.writes pieces
  have hbuffer := LineBuffer.foldl_write LineBuffer.empty pieces
  have hused : m.used = min (String.join pieces).utf8ByteSize lineSize := by
    rw [hholds.used_eq, hbuffer, LineBuffer.bytes_write_empty, ByteArray.size_extract]
    exact Nat.min_comm _ _
  have hbytes : m.data.extract 0 m.used = (String.join pieces).toUTF8.extract 0 m.used := by
    rw [hholds.bytes_eq, hbuffer, LineBuffer.bytes_write_empty, hused]
    exact (extract_min _ _).symm
  have hcut : IsCut lineSize (String.join pieces)
      (pieces.foldl LineBuffer.write LineBuffer.empty).text := by
    rw [hbuffer, LineBuffer.text_write_empty]
    exact isCut_cut _ _
  exact ⟨m, hm, hholds, hused, hbytes, hholds.text, hcut⟩

end LineMemory

end BootLoader.Journal
