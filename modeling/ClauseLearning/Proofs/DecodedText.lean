import ClauseLearning.Proofs.DimacsGrammar

/-! A file reads as the text it holds. The lines of a file are cut out of its bytes and decoded one
by one, all of them before the first is read; a text is decoded as a whole and then cut. Both cuts
are at the same places because a line feed and a carriage return are coded by one byte each that
the code of no other character has in it, so a file is valid when each of its lines is. -/
namespace ClauseLearning

namespace Text

/-! ## Cutting coded text -/

/-- The code of a symbol is one mark, and the code of no other symbol has that mark in it. -/
structure Solitary (encode : α → List β) (symbol : α) (mark : β) : Prop where
  alone : encode symbol = [mark]
  apart : ∀ other, mark ∈ encode other → other = symbol

theorem splitOn_append_of_notMem [BEq β] [LawfulBEq β] {mark : β} {before : List β}
    (clear : mark ∉ before) (rest : List β) :
    (before ++ rest).splitOn mark = (rest.splitOn mark).modifyHead (before ++ ·) := by
  induction before with
  | nil =>
    rw [List.nil_append]
    cases rest.splitOn mark <;> rfl
  | cons b before ih =>
    rw [List.mem_cons, not_or] at clear
    have other : (b == mark) ≠ true := by simpa using Ne.symm clear.1
    rw [List.cons_append, List.splitOn_cons_eq_if_modifyHead, if_neg other, ih clear.2,
      List.modifyHead_modifyHead]
    rfl

theorem dropReturn_concat [DecidableEq α] (ret last : α) (line : List α) :
    dropReturn ret (line ++ [last]) = if last = ret then line else line ++ [last] := by
  simp [dropReturn]

/-- All parts but the last are lines without their carriage returns; the last is one unless it is
empty. -/
theorem splitLines_eq [BEq α] (feed ret : α) (text : List α) :
    splitLines feed ret text = (text.splitOn feed).dropLast.map (dropReturn ret) ++
      (text.splitOn feed).getLast?.toList.filter (!·.isEmpty) := by
  unfold splitLines
  dsimp only
  cases (text.splitOn feed).getLast? with
  | none => simp
  | some last => cases last <;> simp

section Coded

variable {α β : Type} [DecidableEq α] [DecidableEq β] {encode : α → List β}

theorem Solitary.splitOn_flatMap {symbol : α} {mark : β} (sole : Solitary encode symbol mark)
    (text : List α) :
    (text.flatMap encode).splitOn mark = (text.splitOn symbol).map (·.flatMap encode) := by
  induction text with
  | nil => simp
  | cons c text ih =>
    rw [List.flatMap_cons, List.splitOn_cons_eq_if_modifyHead]
    by_cases same : c = symbol
    · subst same
      rw [sole.alone, List.singleton_append, List.splitOn_cons_eq_if_modifyHead, ih]
      simp
    · rw [splitOn_append_of_notMem (fun inside => same (sole.apart c inside)), ih,
        if_neg (by simpa using same)]
      cases text.splitOn symbol <;> simp

theorem Solitary.dropReturn_flatMap {ret : α} {mark : β} (sole : Solitary encode ret mark)
    (written : ∀ c, encode c ≠ []) (line : List α) :
    dropReturn mark (line.flatMap encode) = (dropReturn ret line).flatMap encode := by
  rcases List.eq_nil_or_concat' line with rfl | ⟨before, last, rfl⟩
  · rfl
  rw [List.flatMap_append, List.flatMap_singleton, dropReturn_concat]
  split
  · rename_i same
    rw [same, sole.alone, dropReturn_concat, if_pos rfl]
  · rename_i other
    -- the code of another last symbol ends in some other mark
    have ends : (before.flatMap encode ++ encode last).getLast? ≠ some mark := by
      rw [List.getLast?_append_of_ne_nil _ (written last)]
      intro final
      exact other (sole.apart last (List.mem_of_getLast? final))
    rw [dropReturn, if_neg (by simpa using ends), List.flatMap_append, List.flatMap_singleton]

variable {feed ret : α} {feedMark retMark : β}

/-- Cutting the code of a text into lines gives the codes of its lines. -/
theorem splitLines_flatMap (soleFeed : Solitary encode feed feedMark)
    (soleReturn : Solitary encode ret retMark) (written : ∀ c, encode c ≠ []) (text : List α) :
    splitLines feedMark retMark (text.flatMap encode) =
      (splitLines feed ret text).map (·.flatMap encode) := by
  rw [splitLines_eq, splitLines_eq, soleFeed.splitOn_flatMap, List.map_append]
  congr 1
  · rw [← List.map_dropLast, List.map_map, List.map_map]
    exact List.map_congr_left fun line _ => soleReturn.dropReturn_flatMap written line
  · -- the code of a text is empty when the text is
    rw [List.getLast?_map]
    cases (text.splitOn feed).getLast? with
    | none => rfl
    | some last => cases last <;> simp [written]

omit [DecidableEq α] [DecidableEq β] in
theorem exists_flatMap_eq_intercalate (soleFeed : Solitary encode feed feedMark)
    {parts : List (List β)} (coded : ∀ part ∈ parts, ∃ text : List α, text.flatMap encode = part) :
    ∃ text : List α, text.flatMap encode = [feedMark].intercalate parts := by
  induction parts with
  | nil => exact ⟨[], rfl⟩
  | cons part parts ih =>
    obtain ⟨⟨here, code⟩, coded⟩ := List.forall_mem_cons.mp coded
    obtain ⟨later, codes⟩ := ih coded
    cases parts with
    | nil => exact ⟨here, by simpa using code⟩
    | cons next parts =>
      refine ⟨here ++ feed :: later, ?_⟩
      rw [List.intercalate_cons_cons, List.flatMap_append, List.flatMap_cons, soleFeed.alone, code,
        codes, List.append_assoc]

omit [DecidableEq α] in
/-- What is cut into the codes of lines is itself the code of a text. -/
theorem exists_flatMap_of_splitLines (soleFeed : Solitary encode feed feedMark)
    (soleReturn : Solitary encode ret retMark) {bytes : List β}
    (coded : ∀ line ∈ splitLines feedMark retMark bytes,
      ∃ text : List α, text.flatMap encode = line) :
    ∃ text : List α, text.flatMap encode = bytes := by
  have joined : [feedMark].intercalate (bytes.splitOn feedMark) = bytes :=
    List.intercalate_splitOn feedMark
  rw [← joined]
  refine exists_flatMap_eq_intercalate soleFeed fun part member => ?_
  rw [← List.dropLast_concat_getLast (List.splitOn_ne_nil feedMark bytes)] at member
  rcases List.mem_append.mp member with member | member
  · -- a part before the last is a line, or a line and a carriage return
    have line := List.mem_append_left ((bytes.splitOn feedMark).getLast?.toList.filter (!·.isEmpty))
      (List.mem_map_of_mem (f := dropReturn retMark) member)
    rw [← splitLines_eq] at line
    obtain ⟨text, code⟩ := coded _ line
    rcases List.eq_nil_or_concat' part with rfl | ⟨before, last, rfl⟩
    · exact ⟨[], rfl⟩
    rw [dropReturn_concat] at code
    split at code
    · rename_i same
      exact ⟨text ++ [ret], by simp [code, same, soleReturn.alone]⟩
    · exact ⟨text, code⟩
  · obtain rfl := List.mem_singleton.mp member
    by_cases empty : (bytes.splitOn feedMark).getLast (List.splitOn_ne_nil feedMark bytes) = []
    · exact ⟨[], empty.symm⟩
    · refine coded _ ?_
      rw [splitLines_eq, List.getLast?_eq_some_getLast (List.splitOn_ne_nil feedMark bytes)]
      simp [empty]

end Coded

/-! ## Characters and bytes -/

/-- An ASCII character is coded by its own number; the bytes of other characters are above. -/
theorem utf8_solitary {c : Char} {byte : UInt8} (code : byte.toNat = c.toNat)
    (ascii : c.toNat < 128) : Solitary String.utf8EncodeChar c byte := by
  constructor
  · rw [String.utf8EncodeChar.eq_def]
    have number : c.val.toNat = byte.toNat := code.symm
    simp only [number, code, ascii, Nat.le_of_lt_succ, if_true]
    rw [← code, UInt8.ofNat_toNat]
  · intro other inside
    apply Char.toNat_inj.mp
    rw [← code]
    have number : other.toNat = other.val.toNat := rfl
    have limited := other.val.toNat_lt
    rw [String.utf8EncodeChar.eq_def] at inside
    simp only at inside
    -- a code of more than one byte has no byte below 128
    split_ifs at inside <;>
      simp only [List.mem_cons, List.not_mem_nil, or_false, ← UInt8.toNat_inj,
        UInt8.toNat_ofNat'] at inside <;> omega

/-- The bytes are the code of the text that they are decoded to. -/
theorem fromUTF8?_eq_some_iff {bytes : List UInt8} {text : String} :
    String.fromUTF8? ⟨bytes.toArray⟩ = some text ↔
      text.toList.flatMap String.utf8EncodeChar = bytes := by
  have code : text.toByteArray = ⟨(text.toList.flatMap String.utf8EncodeChar).toArray⟩ := by
    conv_lhs => rw [← String.ofList_toList (s := text), String.toByteArray_ofList]
    apply ByteArray.ext
    exact List.data_toByteArray
  constructor
  · intro decoded
    unfold String.fromUTF8? at decoded
    split at decoded
    · cases decoded
      have same := congrArg ByteArray.data code
      exact (List.toArray_inj same).symm
    · cases decoded
  · rintro rfl
    rw [← code]
    unfold String.fromUTF8?
    rw [dif_pos text.isValidUTF8]
    exact congrArg some (String.toByteArray_inj.mp rfl)

theorem exists_of_mapM_eq_some {f : α → Option β} {xs : List α} {ys : List β}
    (mapped : xs.mapM f = some ys) : ∀ x ∈ xs, ∃ y, f x = some y := by
  induction xs generalizing ys with
  | nil => simp
  | cons x xs ih =>
    rw [List.mapM_cons] at mapped
    obtain ⟨y, here, mapped⟩ := Option.bind_eq_some_iff.mp mapped
    obtain ⟨ys, later, -⟩ := Option.bind_eq_some_iff.mp mapped
    exact List.forall_mem_cons.mpr ⟨⟨y, here⟩, ih later⟩

/-- Decoding the lines of a byte string gives the lines of the text decoded as a whole. -/
theorem decodedLines?_eq (bytes : List UInt8) :
    decodedLines? bytes = (String.fromUTF8? ⟨bytes.toArray⟩).map lines := by
  have feed : Solitary String.utf8EncodeChar '\n' 0x0A := utf8_solitary rfl (by decide)
  have ret : Solitary String.utf8EncodeChar '\r' 0x0D := utf8_solitary rfl (by decide)
  cases whole : String.fromUTF8? ⟨bytes.toArray⟩ with
  | some text =>
    rw [fromUTF8?_eq_some_iff] at whole
    have each : (fun line => String.fromUTF8? ⟨line.toArray⟩) ∘ (·.flatMap String.utf8EncodeChar) =
        fun line => pure (String.ofList line) := by
      funext line
      exact fromUTF8?_eq_some_iff.mpr (by rw [String.toList_ofList])
    rw [decodedLines?, ← whole, splitLines_flatMap feed ret fun _ => String.utf8EncodeChar_ne_nil,
      List.mapM_map, each, List.mapM_pure]
    rfl
  | none =>
    cases decoded : decodedLines? bytes with
    | none => rfl
    | some _ =>
      -- lines that are all valid are the lines of a text, which the bytes would then be valid for
      have coded : ∀ line ∈ splitLines 0x0A 0x0D bytes,
          ∃ text : List Char, text.flatMap String.utf8EncodeChar = line := by
        intro line member
        obtain ⟨text, here⟩ := exists_of_mapM_eq_some decoded line member
        exact ⟨text.toList, fromUTF8?_eq_some_iff.mp here⟩
      obtain ⟨text, code⟩ := exists_flatMap_of_splitLines feed ret coded
      rw [← String.toList_ofList (l := text), ← fromUTF8?_eq_some_iff, whole] at code
      cases code

/-! ## Carriage returns at the end of a line -/

theorem trim_dropReturn (line : List Char) : trim (dropReturn '\r' line) = trim line := by
  rcases List.eq_nil_or_concat' line with rfl | ⟨before, last, rfl⟩
  · rfl
  rw [dropReturn_concat]
  split
  · rename_i same
    have blank : isBlank last = true := same ▸ by decide
    rw [trim, trim, List.dropWhile_append]
    split
    · rename_i empty
      rw [List.isEmpty_iff.mp empty, List.dropWhile_cons_of_pos blank]
      rfl
    · rw [List.reverse_append, List.reverse_singleton, List.singleton_append,
        List.dropWhile_cons_of_pos blank]
  · rfl

end Text

namespace Dimacs

/-- Only the trimmed lines matter. -/
theorem documentFrom_congr {line : Nat} {texts others : List (List Char)}
    (same : texts.map Text.trim = others.map Text.trim) :
    documentFrom line texts = documentFrom line others := by
  rw [documentFrom_eq, documentFrom_eq, significantFrom, significantFrom, same]

/-- A carriage return at the end of a line is of no account. -/
theorem ofLines_dropReturn (lines : List String) :
    ofLines (lines.map fun line => String.ofList (Text.dropReturn '\r' line.toList)) =
      ofLines lines := by
  apply documentFrom_congr
  simp only [List.map_map]
  refine List.map_congr_left fun line _ => ?_
  simp [Text.trim_dropReturn]

/-- A file is refused for its encoding exactly when its bytes are not UTF-8, wherever they fail to
be, and otherwise gives the formula or the error that the decoded text gives. No line end makes a
difference: a carriage return that it leaves on its line is of no account. -/
theorem file_reads_as_text (bytes : List UInt8) :
    (ofFile (some bytes) = .error .invalidEncoding ↔ ¬ ByteArray.IsValidUTF8 ⟨bytes.toArray⟩) ∧
      (∀ text, String.fromUTF8? ⟨bytes.toArray⟩ = some text →
        ofFile (some bytes) = (ofText text).mapError .malformed) ∧
      ∀ lines : List String,
        ofLines (lines.map fun line => String.ofList (Text.dropReturn '\r' line.toList)) =
          ofLines lines := by
  have read : ofFile (some bytes) = match String.fromUTF8? ⟨bytes.toArray⟩ with
      | none => .error .invalidEncoding
      | some text => (ofText text).mapError .malformed := by
    rw [ofFile, ofBytes, Text.decodedLines?_eq]
    cases String.fromUTF8? ⟨bytes.toArray⟩ <;> rfl
  refine ⟨?_, ?_, ofLines_dropReturn⟩
  · rw [read]
    by_cases valid : ByteArray.IsValidUTF8 ⟨bytes.toArray⟩
    · rw [String.fromUTF8?, dif_pos valid]
      dsimp only
      cases ofText (String.fromUTF8 ⟨bytes.toArray⟩ valid) <;> simp [Except.mapError, valid]
    · simp [String.fromUTF8?, valid]
  · intro text decoded
    rw [read, decoded]

/-- A header whose line ends with a carriage return, and a percent sign before the end of the file.
A byte that starts no character spoils the file even there, where nothing is read. -/
theorem file_reads_as_text_after_finish :
    (String.fromUTF8? ⟨"p cnf 1 0\r\n%\r".toUTF8.data⟩ = some "p cnf 1 0\r\n%\r" ∧
      ofFile (some "p cnf 1 0\r\n%\r".toUTF8.data.toList) = .ok ⟨.ofClauses 1 [], 0⟩) ∧
      ofFile (some ("p cnf 1 0\r\n%\r".toUTF8.data.toList ++ [0xFF])) =
        .error .invalidEncoding := by
  have decoded : String.fromUTF8? ⟨"p cnf 1 0\r\n%\r".toUTF8.data⟩ = some "p cnf 1 0\r\n%\r" := by
    decide +kernel
  have read := (file_reads_as_text "p cnf 1 0\r\n%\r".toUTF8.data.toList).2.1 _ decoded
  exact ⟨⟨decoded, read.trans rfl⟩, (file_reads_as_text _).1.mpr (by decide +kernel)⟩

end Dimacs
end ClauseLearning
