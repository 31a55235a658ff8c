import Mathlib.Tactic

/-!
# Lists in files

`lib/filter-in-list.c`. The file is read with `fgets` into a buffer of 16384 bytes, and the last
byte of what was read is taken off, whether or not it is a newline.
-/
namespace SyslogNg.Filter

open List

abbrev Line := List UInt8

/-- What the calls of `fgets` read: a call stores bytes behind `line` until it has stored a newline
or has filled the buffer up to the byte for the NUL, or the file ends. -/
def fgets : (line stream : Line) → List Line
  | [], [] => []
  | line, [] => [line]
  | line, b :: stream =>
    let line := line ++ [b]
    if b = 0x0a ∨ line.length = 16383 then line :: fgets [] stream else fgets line stream

/-- The texts of the pieces in the tree that `filter_in_list_new` makes -/
def filterInListNew (file : Line) : List Line := ((fgets [] file).map dropLast).filter (· ≠ [])

def filterInListEval (tree : List Line) (comp : Bool) (value : Line) : Bool :=
  tree.contains value ^^ comp

/-- A file with these lines, and the text behind the last newline -/
def fileOf (lines : List Line) (last : Line) : Line := lines.flatMap (· ++ [0x0a]) ++ last

/-- Bytes that fit into the buffer are stored behind those that are there. -/
theorem fgets_append {line : Line} (piece : Line) (hl : 0x0a ∉ line)
    (hln : piece.length + line.length < 16383) (stream : Line) :
    fgets piece (line ++ stream) = fgets (piece ++ line) stream := by
  induction line generalizing piece with
  | nil => simp
  | cons b line ih =>
    obtain ⟨hb, hl⟩ := not_or.mp (mt mem_cons.mpr hl)
    rw [length_cons] at hln
    have hlb : (piece ++ [b]).length = piece.length + 1 := by simp
    rw [cons_append, fgets, if_neg, ih _ hl (by omega), append_assoc, singleton_append]
    rintro (rfl | hf)
    · exact hb rfl
    · omega

/-- Lines that fit into the buffer are read as a whole. -/
theorem fgets_fileOf {lines : List Line} {last : Line} (hl : ∀ line ∈ lines ++ [last], 0x0a ∉ line)
    (hs : ∀ line ∈ lines ++ [last], line.length < 16383) : fgets [] (fileOf lines last) =
      lines.map (· ++ [0x0a]) ++ if last = [] then [] else [last] := by
  induction lines with
  | nil =>
    have hw := fgets_append [] (hl last (by simp)) (by simpa using hs last (by simp)) []
    rw [append_nil] at hw
    cases last with
    | nil => rfl
    | cons b last => exact hw
  | cons line lines ih =>
    rw [fileOf] at ih
    rw [fileOf, flatMap_cons, append_assoc, append_assoc, singleton_append,
      fgets_append _ (hl line (by simp)) (by simpa using hs line (by simp)), fgets,
      if_pos (.inl rfl),
      ih (fun l h => hl l (mem_cons_of_mem _ h)) fun l h => hs l (mem_cons_of_mem _ h)]
    rfl

/-- A piece fits into the buffer. -/
theorem length_le_of_mem_fgets {piece line stream : Line} (hl : line.length < 16383)
    (h : piece ∈ fgets line stream) : piece.length ≤ 16383 := by
  induction stream generalizing line with
  | nil =>
    cases line with
    | nil => simp [fgets] at h
    | cons b line =>
      obtain rfl : piece = b :: line := by simpa [fgets] using h
      exact hl.le
  | cons b stream ih =>
    have hlb : (line ++ [b]).length = line.length + 1 := by simp
    rw [fgets] at h
    split_ifs at h with hf
    · rcases mem_cons.mp h with rfl | h
      · omega
      · exact ih (by simp) h
    · exact ih (by omega) h

theorem length_lt_of_mem_filterInListNew {value file : Line} (h : value ∈ filterInListNew file) :
    value.length < 16383 := by
  obtain ⟨piece, hp, rfl⟩ := mem_map.mp (mem_of_mem_filter h)
  have hl := length_le_of_mem_fgets (by simp) hp
  rw [length_dropLast]
  omega

theorem mem_filterInListNew {lines : List Line} {last : Line}
    (hl : ∀ line ∈ lines ++ [last], 0x0a ∉ line)
    (hs : ∀ line ∈ lines ++ [last], line.length < 16383) (value : Line) :
    value ∈ filterInListNew (fileOf lines last) ↔
      value ≠ [] ∧ (value ∈ lines ∨ last ≠ [] ∧ value = last.dropLast) := by
  have hd : (dropLast ∘ fun line : Line => line ++ [0x0a]) = id := funext fun _ => dropLast_concat
  rw [filterInListNew, fgets_fileOf hl hs, mem_filter, map_append, map_map, hd, map_id, mem_append,
    and_comm, decide_eq_true_eq]
  split_ifs with hn <;> simp [hn]

/-- The filter is membership in the lines of the file, exactly if every line fits into the buffer
and the file ends with a newline, or what is behind the last one and what is kept of it are lines
already. -/
theorem in_list_iff {lines : List Line} {last : Line}
    (hlines : ∀ line ∈ lines ++ [last], 0x0a ∉ line) :
    (∀ value, filterInListEval (filterInListNew (fileOf lines last)) false value = true ↔
        value ≠ [] ∧ value ∈ lines ++ [last]) ↔
      (∀ line ∈ lines ++ [last], line.length < 16383) ∧
        (last = [] ∨ last ∈ lines ∧ (last.dropLast = [] ∨ last.dropLast ∈ lines)) := by
  simp only [filterInListEval, Bool.xor_false, contains_iff_mem]
  by_cases hs : ∀ line ∈ lines ++ [last], line.length < 16383
  · rw [and_iff_right hs]
    simp only [mem_filterInListNew hlines hs, and_congr_right_iff, mem_append, mem_singleton]
    by_cases hn : last = []
    · simp +contextual [hn]
    · have hd : last.dropLast ≠ last := by
        intro he
        have hl := congrArg length he
        have hp := length_pos_of_ne_nil hn
        rw [length_dropLast] at hl
        omega
      constructor
      · intro h
        refine .inr ⟨((h last hn).mpr (.inr rfl)).resolve_right fun he => hd he.2.symm, ?_⟩
        by_cases he : last.dropLast = []
        · exact .inl he
        · exact .inr (((h _ he).mp (.inr ⟨hn, rfl⟩)).resolve_right hd)
      · rintro (he | ⟨hl, hk⟩) value hne
        · exact absurd he hn
        · constructor
          · rintro (h | ⟨-, rfl⟩)
            · exact .inl h
            · exact .inl (hk.resolve_left hne)
          · rintro (h | rfl)
            · exact .inl h
            · exact .inl hl
  · refine iff_of_false (fun h => hs fun line hl => ?_) fun h => hs h.1
    by_cases hn : line = []
    · simp [hn]
    · exact length_lt_of_mem_filterInListNew ((h line).mpr ⟨hn, hl⟩)

/-- The text behind the last newline and what is kept of it are lines, too. -/
theorem in_list_newline :
    filterInListEval (filterInListNew (fileOf [[0x61], [], [0x61, 0x62]] [0x61, 0x62])) false
      [0x61, 0x62] = true :=
  ((in_list_iff (by decide)).mpr ⟨by decide, by decide⟩ [0x61, 0x62]).mpr (by decide)

/-- A file without a newline at its end: the last byte is lost. -/
theorem in_list_cuts_last : let tree := filterInListNew (fileOf [] [0x61, 0x62])
    filterInListEval tree false [0x61, 0x62] = false ∧
    filterInListEval tree false [0x61] = true := by
  decide

end SyslogNg.Filter
