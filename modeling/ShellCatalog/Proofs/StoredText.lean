import ShellCatalog.Findings
import ShellCatalog.Text.Utf8

/-!
# How a text is stored does not matter

A file may be written with a byte-order mark in front and with carriage returns in front of some of
its newlines, of all or of none, and it may be given as text or as bytes. What is read is the same
text each time, so the file tells the same dialect, defines the same and has the same reported.

**Both marks are taken out before anything is read** (`cleanText_stored`), so no part of the reading
has to know of them: not the line that names an interpreter, not the end of a here-document, not a
continued line and not the count of lines. **Bytes that were written from a text are read as that
text** (`decodeBytes_utf8Bytes`): a character is read back from its bytes whatever follows them.
-/

namespace ShellCatalog

/-! ### Characters from their bytes -/

theorem toNat_continuationByte (v : Nat) : (UInt8.ofNat (v % 64 + 128)).toNat = v % 64 + 128 :=
  UInt8.toNat_ofNat_of_lt' (Nat.lt_of_lt_of_le (Nat.add_lt_add_right (Nat.mod_lt v (by decide)) 128)
    (by decide))

theorem toNat_mod_continuationByte (v : Nat) :
    (UInt8.ofNat (v % 64 + 128)).toNat % 64 = v % 64 := by
  rw [toNat_continuationByte]
  omega

/-- A continuation byte adds its six bits to what was read in front of it. -/
theorem readContinuation_cons (acc n v : Nat) (bytes : List UInt8) :
    readContinuation acc (n + 1) (UInt8.ofNat (v % 64 + 128) :: bytes) =
      readContinuation (acc * 64 + v % 64) n bytes := by
  have hcontinues : isContinuation (UInt8.ofNat (v % 64 + 128)) = true := by
    simp only [isContinuation, Bool.and_eq_true, decide_eq_true_eq, UInt8.le_iff_toNat_le,
      toNat_continuationByte]
    exact ⟨Nat.le_add_left .., show v % 64 + 128 ≤ 191 by omega⟩
  rw [readContinuation, if_pos hcontinues, toNat_mod_continuationByte]

/-- A first byte and a second in its range are read, and then what the first announced. -/
theorem readChar_of_continuation {b : UInt8} {c : Continuation} (h : continuation? b = some c)
    (large : ¬ b < 0x80) {v : Nat} (low : c.low.toNat ≤ v % 64 + 128)
    (high : v % 64 + 128 ≤ c.high.toNat) (bytes : List UInt8) :
    readChar b (UInt8.ofNat (v % 64 + 128) :: bytes) =
      readContinuation (leadBits b (c.more + 1) * 64 + v % 64) c.more bytes := by
  have hrange :
      (c.low ≤ UInt8.ofNat (v % 64 + 128) && UInt8.ofNat (v % 64 + 128) ≤ c.high) = true := by
    simp only [Bool.and_eq_true, decide_eq_true_eq, UInt8.le_iff_toNat_le, toNat_continuationByte]
    exact ⟨low, high⟩
  unfold readChar
  rw [if_neg large, h]
  dsimp only
  rw [if_pos hrange, toNat_mod_continuationByte]

/-- The first byte of a sequence of two. -/
theorem continuation?_two : ∀ n < 32, 2 ≤ n →
    let b := UInt8.ofNat (n + 192)
    continuation? b = some ⟨0x80, 0xBF, 0⟩ ∧ ¬ b < 0x80 ∧ leadBits b 1 = n := by
  decide

/-- The first byte of a sequence of three. The second is limited where the sequence would be
overlong or a surrogate. -/
theorem continuation?_three : ∀ n < 16,
    let b := UInt8.ofNat (n + 224)
    continuation? b =
        some ⟨if n = 0 then 0xA0 else 0x80, if n = 13 then 0x9F else 0xBF, 1⟩ ∧
      ¬ b < 0x80 ∧ leadBits b 2 = n := by
  decide

/-- The first byte of a sequence of four. The second is limited where the sequence would be overlong
or beyond the last character. -/
theorem continuation?_four : ∀ n < 5,
    let b := UInt8.ofNat (n + 240)
    continuation? b =
        some ⟨if n = 0 then 0x90 else 0x80, if n = 4 then 0x8F else 0xBF, 2⟩ ∧
      ¬ b < 0x80 ∧ leadBits b 3 = n := by
  decide

/-! The four lengths -/

section Lengths

variable {v : Nat} (bytes : List UInt8)

theorem readChar_one (high : v ≤ 0x7f) :
    readChar (UInt8.ofNat v) bytes = (some (Char.ofNat v), bytes) := by
  have hbyte : (UInt8.ofNat v).toNat = v :=
    UInt8.toNat_ofNat_of_lt' (Nat.lt_of_le_of_lt high (by decide))
  have hsmall : UInt8.ofNat v < 0x80 := by
    rw [UInt8.lt_iff_toNat_lt, hbyte]
    exact Nat.lt_succ_of_le high
  unfold readChar
  rw [if_pos hsmall, hbyte]

theorem readChar_two (low : 0x7f < v) (high : v ≤ 0x7ff) :
    readChar (UInt8.ofNat (v / 64 % 32 + 192)) (UInt8.ofNat (v % 64 + 128) :: bytes) =
      (some (Char.ofNat v), bytes) := by
  obtain ⟨hlead, hlarge, hbits⟩ := continuation?_two (v / 64 % 32) (by omega) (by omega)
  have hv : v / 64 % 32 * 64 + v % 64 = v := by omega
  rw [readChar_of_continuation hlead hlarge (Nat.le_add_left ..) (show v % 64 + 128 ≤ 191 by omega),
    hbits, readContinuation, hv]

theorem readChar_three (low : 0x7ff < v) (high : v ≤ 0xffff) (valid : v < 0xD800 ∨ 0xDFFF < v) :
    readChar (UInt8.ofNat (v / 4096 % 16 + 224))
        (UInt8.ofNat (v / 64 % 64 + 128) :: UInt8.ofNat (v % 64 + 128) :: bytes) =
      (some (Char.ofNat v), bytes) := by
  obtain ⟨hlead, hlarge, hbits⟩ := continuation?_three (v / 4096 % 16) (by omega)
  have hv : (v / 4096 % 16 * 64 + v / 64 % 64) * 64 + v % 64 = v := by omega
  have hlow : (if v / 4096 % 16 = 0 then 0xA0 else 0x80 : UInt8).toNat ≤ v / 64 % 64 + 128 := by
    split
    · show 160 ≤ _
      omega
    · exact Nat.le_add_left ..
  have hhigh : v / 64 % 64 + 128 ≤ (if v / 4096 % 16 = 13 then 0x9F else 0xBF : UInt8).toNat := by
    split
    · show _ ≤ 159
      omega
    · show _ ≤ 191
      omega
  rw [readChar_of_continuation hlead hlarge hlow hhigh, hbits, readContinuation_cons,
    readContinuation, hv]

theorem readChar_four (low : 0xffff < v) (high : v < 0x110000) :
    readChar (UInt8.ofNat (v / 262144 % 8 + 240))
        (UInt8.ofNat (v / 4096 % 64 + 128) :: UInt8.ofNat (v / 64 % 64 + 128) ::
          UInt8.ofNat (v % 64 + 128) :: bytes) =
      (some (Char.ofNat v), bytes) := by
  obtain ⟨hlead, hlarge, hbits⟩ := continuation?_four (v / 262144 % 8) (by omega)
  have hv : ((v / 262144 % 8 * 64 + v / 4096 % 64) * 64 + v / 64 % 64) * 64 + v % 64 = v := by
    omega
  have hlow : (if v / 262144 % 8 = 0 then 0x90 else 0x80 : UInt8).toNat ≤ v / 4096 % 64 + 128 := by
    split
    · show 144 ≤ _
      omega
    · exact Nat.le_add_left ..
  have hhigh : v / 4096 % 64 + 128 ≤ (if v / 262144 % 8 = 4 then 0x8F else 0xBF : UInt8).toNat := by
    split
    · show _ ≤ 143
      omega
    · show _ ≤ 191
      omega
  rw [readChar_of_continuation hlead hlarge hlow hhigh, hbits, readContinuation_cons,
    readContinuation_cons, readContinuation, hv]

end Lengths

/-- A character is read from its bytes, whatever follows them. -/
theorem readChars_utf8EncodeChar (c : Char) (bytes : List UInt8) :
    readChars (String.utf8EncodeChar c ++ bytes) = some c :: readChars bytes := by
  have hread {b : UInt8} {front : List UInt8}
      (h : readChar b (front ++ bytes) = (some (Char.ofNat c.toNat), bytes)) :
      readChars (b :: front ++ bytes) = some c :: readChars bytes := by
    rw [List.cons_append, readChars, h, Char.ofNat_toNat]
  have hvalid : c.val.toNat < 0xD800 ∨ 0xDFFF < c.val.toNat ∧ c.val.toNat < 0x110000 := c.valid
  rw [String.utf8EncodeChar]
  split
  · next one => exact hread (readChar_one _ one)
  · next more =>
    split
    · next two => exact hread (readChar_two _ (Nat.lt_of_not_le more) two)
    · next more =>
      split
      · next three =>
        exact hread (readChar_three _ (Nat.lt_of_not_le more) three (hvalid.imp_right And.left))
      · next more =>
        exact hread (readChar_four _ (Nat.lt_of_not_le more) (by omega))

/-- A text is read from its bytes. -/
theorem decodeBytes_utf8Bytes (text : List Char) : decodeBytes (utf8Bytes text) = text := by
  have hchars : readChars (utf8Bytes text) = text.map some := by
    induction text with
    | nil => rw [utf8Bytes, List.flatMap_nil, readChars]; rfl
    | cons c text ih =>
      rw [utf8Bytes, List.flatMap_cons, readChars_utf8EncodeChar]
      exact congrArg _ ih
  rw [decodeBytes, hchars, List.map_map]
  exact List.map_id text

/-! ### Marks that are taken out -/

/-- A text with a carriage return in front of those newlines that are chosen. They are counted from
the front, the first as zero. -/
def withReturns (chosen : Nat → Bool) : List Char → List Char
  | [] => []
  | '\n' :: rest =>
    (if chosen 0 then ['\r', '\n'] else ['\n']) ++ withReturns (fun n ↦ chosen (n + 1)) rest
  | c :: rest => c :: withReturns chosen rest

/-- A text as it is stored: with carriage returns in front of the chosen newlines, and with a
byte-order mark if it is marked. -/
def storedText (marked : Bool) (chosen : Nat → Bool) (text : List Char) : List Char :=
  if marked then '\ufeff' :: withReturns chosen text else withReturns chosen text

theorem withReturns_cons {c : Char} (h : c ≠ '\n') (chosen : Nat → Bool) (rest : List Char) :
    withReturns chosen (c :: rest) = c :: withReturns chosen rest := by
  rw [withReturns]
  exact h

/-- Carriage returns do not bring a mark to the front. -/
theorem head?_withReturns_ne {text : List Char} (mark : text.head? ≠ some '\ufeff')
    (chosen : Nat → Bool) : (withReturns chosen text).head? ≠ some '\ufeff' := by
  cases text with
  | nil => exact mark
  | cons c rest =>
    by_cases newline : c = '\n'
    · subst newline
      rw [withReturns]
      cases chosen 0 <;> simp
    · rwa [withReturns_cons newline]

theorem unixNewlines_withReturns {text : List Char} (returns : '\r' ∉ text)
    (chosen : Nat → Bool) : unixNewlines (withReturns chosen text) = text := by
  induction text generalizing chosen with
  | nil => rfl
  | cons c rest ih =>
    simp only [List.mem_cons, not_or] at returns
    by_cases newline : c = '\n'
    · subst newline
      rw [withReturns]
      cases chosen 0 with
      | true => exact congrArg _ (ih returns.2 _)
      | false => exact congrArg _ (ih returns.2 _)
    · rw [withReturns_cons newline, unixNewlines_cons (Ne.symm returns.1), ih returns.2]

theorem cleanText_stored {text : List Char} (returns : '\r' ∉ text)
    (mark : text.head? ≠ some '\ufeff') (marked : Bool) (chosen : Nat → Bool) :
    cleanText (storedText marked chosen text) = text := by
  have hmark : dropByteOrderMark (storedText marked chosen text) = withReturns chosen text := by
    cases marked with
    | true => rfl
    | false => exact dropByteOrderMark_eq_self (head?_withReturns_ne mark chosen)
  rw [cleanText, hmark, unixNewlines_withReturns returns]

/-! ### Files -/

/-- A text without carriage returns and without a byte-order mark is read as it is, and so it is
when it is stored with carriage returns in front of any of its newlines, with a byte-order mark in
front or without, as text or as bytes. The file then tells the same dialect or none, and defines and
reports the same, or is refused with the same words. -/
theorem findings_stored {text : List Char} (returns : '\r' ∉ text)
    (mark : text.head? ≠ some '\ufeff') (path : Path) (dialect : Option Dialect) (marked : Bool)
    (chosen : Nat → Bool) :
    let stored := storedText marked chosen text
    let bytes := utf8Bytes stored
    let plain := Source.ofText path text
    plain.text = text ∧
      (Source.ofText path stored).dialect? = plain.dialect? ∧
      (Source.ofText path stored).findings dialect = plain.findings dialect ∧
      (Source.ofText path (decodeBytes bytes)).dialect? = plain.dialect? ∧
      (Source.ofText path (decodeBytes bytes)).findings dialect = plain.findings dialect := by
  intro stored bytes plain
  have hplain : plain.text = text := cleanText_eq_self mark returns
  have hstored : Source.ofText path stored = plain :=
    congrArg (Source.mk path) ((cleanText_stored returns mark marked chosen).trans hplain.symm)
  have hbytes : Source.ofText path (decodeBytes bytes) = plain := by
    rw [decodeBytes_utf8Bytes, hstored]
  rw [hstored, hbytes]
  exact ⟨hplain, rfl, rfl, rfl, rfl⟩

/-- A marked file that names its interpreter, with carriage returns in front of the first newline
and of the one that ends a here-document. -/
theorem findings_stored_of_hereDoc :
    let text := "#!/bin/zsh\ncat <<é\nalias x=1\né\nalias y=2".toList
    let stored := storedText true (fun n ↦ n = 0 || n = 3) text
    '\r' ∉ text ∧ text.head? ≠ some '\ufeff' ∧
      (Source.ofText ⟨"notes"⟩ stored).dialect? = (Source.ofText ⟨"notes"⟩ text).dialect? ∧
      (Source.ofText ⟨"notes"⟩ (decodeBytes (utf8Bytes stored))).findings none =
        (Source.ofText ⟨"notes"⟩ text).findings none := by
  intro text stored
  have returns : '\r' ∉ text := by decide
  have mark : text.head? ≠ some '\ufeff' := by decide
  obtain ⟨-, hdialect, -, -, hbytes⟩ :=
    findings_stored returns mark ⟨"notes"⟩ none true fun n ↦ n = 0 || n = 3
  exact ⟨returns, mark, hdialect, hbytes⟩

end ShellCatalog
