import Kura.Base.Bits
import Kura.Base.JsonStrings
import Kura.Base.PrefixCode
import Kura.Engine.ReportFormat

/-!
# The texts in a report

What a reader of JSON makes of the texts in a report: a byte that is not
printable ASCII is written as the character with its number.

A character of ASCII is one byte with its own number; every other character has
more bytes than one, so that a text with such a character is read back longer
than it was. The level is the one text that may come from a result and is not
escaped; no result of the program has one that needs it.
-/

namespace Kura.Engine.Report

open Kura.Base Kura.Base.JsonGrammar Kura.Base.JsonStrings Kura.Engine.Jobs Kura.Engine.Batch

/-- The escape of a byte is read as the number of the byte. -/
theorem reads_escapeByte (c : UInt8) : Reads (escapeByte c) c.toNat := by
  rw [escapeByte]
  split_ifs with hquote hslash hnl hcr htab hrange
  · rw [hquote]
    exact reads_short (by decide) rfl
  · rw [hslash]
    exact reads_short (by decide) rfl
  · rw [hnl]
    exact reads_short (by decide) rfl
  · rw [hcr]
    exact reads_short (by decide) rfl
  · rw [htab]
    exact reads_short (by decide) rfl
  · refine reads_unicode ?_
    have hall : hex4 '0' '0' (Nat.digitChar (c.toNat / 16)) (Nat.digitChar (c.toNat % 16)) =
        some c.toNat :=
      forall_byte (P := fun c => hex4 '0' '0' (Nat.digitChar (c.toNat / 16))
        (Nat.digitChar (c.toNat % 16)) = some c.toNat) (by decide +kernel) c
    exact hall
  · have hplain : Char.ofNat c.toNat ≠ '\\' ∧ Char.ofNat c.toNat ≠ '"' ∧
        (Char.ofNat c.toNat).toNat = c.toNat :=
      forall_byte (P := fun c => c ≠ 0x22 → c ≠ 0x5C → Char.ofNat c.toNat ≠ '\\' ∧
        Char.ofNat c.toNat ≠ '"' ∧ (Char.ofNat c.toNat).toNat = c.toNat) (by decide +kernel) c
        hquote hslash
    have hlow : ¬ c < 0x20 := fun hlt => hrange (Or.inl hlt)
    rw [UInt8.lt_iff_toNat_lt, not_lt] at hlow
    have hread := reads_char hplain.1 hplain.2.1 (by rw [hplain.2.2]; exact hlow)
    rwa [hplain.2.2] at hread

/-- What a text of a report is read as. -/
theorem decode_quoted (s : String) :
    decode (quoted s) = some ((utf8 s.toList).map fun c => Char.ofNat c.toNat) :=
  decode_flatMap reads_escapeByte fun c _ => Or.inl (c.toNat_lt_size.trans (by decide))

/-- A text of ASCII has its characters for its bytes. -/
theorem utf8_ascii {cs : List Char} (h : ∀ c ∈ cs, c.toNat < 0x80) :
    (utf8 cs).map (fun c => Char.ofNat c.toNat) = cs := by
  induction cs with
  | nil => rfl
  | cons c cs ih =>
      have hc := h c List.mem_cons_self
      have hencode : String.utf8EncodeChar c = [UInt8.ofNat c.toNat] := by
        rw [String.utf8EncodeChar]
        exact if_pos (Nat.le_of_lt_succ hc)
      rw [utf8_cons, hencode, List.map_append, List.map_singleton,
        UInt8.toNat_ofNat_of_lt' (show c.toNat < 256 by omega), Char.ofNat_toNat,
        ih fun d hd => h d (List.mem_cons_of_mem _ hd), List.singleton_append]

/-- A text has as many bytes as characters only if it is ASCII. -/
theorem ascii_of_length {cs : List Char} (h : (utf8 cs).length = cs.length) :
    ∀ c ∈ cs, c.toNat < 0x80 := by
  have hle : ∀ cs : List Char, cs.length ≤ (utf8 cs).length := by
    intro cs
    induction cs with
    | nil => exact le_rfl
    | cons c cs ih =>
        rw [utf8_cons, List.length_append, String.length_utf8EncodeChar, List.length_cons]
        have hpos := c.utf8Size_pos
        omega
  induction cs with
  | nil => exact fun c hc => absurd hc List.not_mem_nil
  | cons c cs ih =>
      have hrest := hle cs
      have hpos := c.utf8Size_pos
      rw [utf8_cons, List.length_append, String.length_utf8EncodeChar, List.length_cons] at h
      have hone : c.utf8Size = 1 := by omega
      intro d hd
      rcases List.mem_cons.mp hd with rfl | hd
      · have hascii := Char.utf8Size_eq_one_iff.mp hone
        rw [UInt32.le_iff_toNat_le] at hascii
        exact Nat.lt_succ_of_le hascii
      · exact ih (by omega) d hd

/-- A text is read back exactly if it is ASCII. -/
theorem decode_quoted_iff (s : String) :
    decode (quoted s) = some s.toList ↔ ∀ c ∈ s.toList, c.toNat < 0x80 := by
  rw [decode_quoted, Option.some.injEq]
  refine ⟨fun h => ?_, utf8_ascii⟩
  have hlength := congrArg List.length h
  rw [List.length_map] at hlength
  exact ascii_of_length hlength

/-- Texts in a report are read back exactly if they are ASCII; a report is an object whenever the
level of its result needs no escape, and no result of the program has one that does. -/
theorem report_texts (s : String) :
    (decode (quoted s) = some s.toList ↔ ∀ c ∈ s.toList, c.toNat < 0x80) ∧
    (∀ {ρ : Type} (g : Globals) (opt : Options ρ) (res : Result) (source output : String),
      isPlain res.level = true → Object (printReport g opt res source output)) ∧
    ∀ {ρ : Type} (c : Setup ρ) (opt : Options ρ) (data : Bytes),
      isPlain (converted c opt data).2.level = true ∧
        isPlain (uaResult c opt data).level = true := by
  refine ⟨decode_quoted_iff s, fun g opt res source output hlevel => ?_, fun c opt data => ⟨?_, ?_⟩⟩
  · exact (tidy_printReport g opt source output hlevel).1
  · exact isPlain_converted c opt data
  · rw [level_uaResult]
    decide

theorem plainName_read_back : decode (quoted "a.pdf") = some "a.pdf".toList :=
  (report_texts "a.pdf").1.mpr (by simp)

/-- The name `é` is read back as two characters. -/
theorem accent_not_read_back : ¬ ∀ s : String, decode (quoted s) = some s.toList := by
  intro h
  have hascii := (decode_quoted_iff "é").mp (h "é")
  exact absurd (hascii 'é' (by decide)) (by decide)

end Kura.Engine.Report
