import Mathlib.Data.List.Dedup
import Mathlib.Data.List.Perm.Subperm
import Mathlib.Logic.Function.Basic
import SyslogNg.SyslogFormat.Message

/-!
# Tags

The table of `lib/tags.c`, from names to ids and back. The counter `LOG_TAGS_MAX`, 8192 or 16384 by
the size of a `long`, is a parameter. What is left out are the statistics counters and the lock.
-/
namespace SyslogNg.LogMsg

open List Function

structure Tags where
  hash : Bytes → Option ℕ
  list : List (Option Bytes)
  num : ℕ

namespace Tags

def emptyTag : Bytes := [97, 110, 32, 101, 109, 112, 116, 121, 32, 116, 97, 103]

def init : Tags := ⟨update (fun _ => none) emptyTag (some 0), some emptyTag :: replicate 3 none, 0⟩

def getByName (max : ℕ) (s : Tags) (name : Bytes) : ℕ × Tags :=
  match s.hash name with
  | some id => (id, s)
  | none =>
    if s.num < max - 1 then
      let list := if s.num = s.list.length then s.list ++ replicate s.list.length none else s.list
      (s.num, ⟨update s.hash name (some s.num), list.set s.num (some name), s.num + 1⟩)
    else (0, s)

def getById (s : Tags) (id : ℕ) : Option Bytes :=
  if id < s.num then s.list[id]?.join else none

/-- The names that were asked for with the ids they were given, and the tags behind that -/
def run (max : ℕ) : Tags → List Bytes → List (Bytes × ℕ) × Tags
  | s, [] => ([], s)
  | s, name :: names =>
    let got := s.getByName max name
    let rest := run max got.2 names
    ((name, got.1) :: rest.1, rest.2)

/-- Names and ids correspond, and the name of an id that is not shared is found. -/
def OneToOne (max : ℕ) (names : List Bytes) : Prop :=
  let r := run max init names
  (∀ p ∈ r.1, ∀ q ∈ r.1, p.1 = q.1 ↔ p.2 = q.2) ∧
    ∀ p ∈ r.1, (∀ q ∈ r.1, p.2 = q.2 → p.1 = q.1) → r.2.getById p.2 = some p.1

/-- The names in the list, in the order of their ids -/
structure Holds (max : ℕ) (s : Tags) (seen : List Bytes) : Prop where
  num : s.num = seen.length
  le : seen.length ≤ max - 1
  nodup : seen.Nodup
  free : emptyTag ∉ seen
  fresh : ∀ name, s.hash name = none → name ∉ seen ∧ name ≠ emptyTag
  known : ∀ name id, s.hash name = some id → name = emptyTag ∨ seen[id]? = some name
  room : 0 < s.list.length ∧ seen.length ≤ s.list.length
  list : ∀ id < seen.length, s.list[id]? = some seen[id]?

variable {max : ℕ} {s : Tags} {seen : List Bytes}

theorem holds_init : Holds max init [] := by
  constructor <;> simp +contextual [init, update_apply]

theorem Holds.getById (h : Holds max s seen) (id : ℕ) : s.getById id = seen[id]? := by
  rw [Tags.getById, h.num]
  split_ifs with hi
  · rw [h.list id hi]
    rfl
  · rw [getElem?_eq_none (by omega)]

/-- A name that has no id yet is put behind the others. -/
theorem Holds.add (h : Holds max s seen) {name : Bytes} (hn : s.hash name = none)
    (hlt : s.num < max - 1) : Holds max (s.getByName max name).2 (seen ++ [name]) := by
  obtain ⟨hm, hne⟩ := h.fresh name hn
  have hr := h.room
  have hl := h.list
  have hk := h.known
  have hf := h.fresh
  rw [getByName, hn]
  rw [if_pos hlt, h.num]
  rw [h.num] at hlt
  constructor
  · simp
  · simp; omega
  · exact concat_eq_append ▸ h.nodup.concat hm
  · simp [h.free, hne.symm]
  · grind
  · grind
  · grind
  · grind

/-- No name is turned away as long as all names have room. -/
theorem Holds.run (h : Holds max s seen) (names : List Bytes) :
    ∃ new, Holds max (run max s names).2 (seen ++ new) ∧
      ∀ all : List Bytes, seen ⊆ all → names ⊆ all → emptyTag ∉ all → all.dedup.length ≤ max - 1 →
        ∀ p ∈ (run max s names).1, (seen ++ new)[p.2]? = some p.1 := by
  induction names generalizing s seen with
  | nil => exact ⟨[], by simpa [Tags.run] using h, by simp [Tags.run]⟩
  | cons name names ih =>
    rw [Tags.run]
    cases hn : s.hash name with
    | some id =>
      have hg : s.getByName max name = (id, s) := by rw [getByName, hn]
      obtain ⟨new, hh, ha⟩ := ih h
      rw [hg]
      refine ⟨new, hh, fun all hs hns he hc p hp => ?_⟩
      rcases mem_cons.mp hp with rfl | hp
      · rcases h.known name id hn with rfl | hid
        · exact absurd (hns (mem_cons_self ..)) he
        · grind
      · exact ha all hs (fun _ hm => hns (mem_cons_of_mem _ hm)) he hc p hp
    | none =>
      by_cases hlt : s.num < max - 1
      · obtain ⟨new, hh, ha⟩ := ih (h.add hn hlt)
        have hg : (s.getByName max name).1 = seen.length := by
          rw [getByName, hn, ← h.num]
          exact congrArg Prod.fst (if_pos hlt)
        rw [append_assoc] at hh ha
        refine ⟨[name] ++ new, hh, fun all hs hns he hc p hp => ?_⟩
        rcases mem_cons.mp hp with rfl | hp
        · simp [hg]
        · exact ha all (by grind) (fun _ hm => hns (mem_cons_of_mem _ hm)) he hc p hp
      · have hg : s.getByName max name = (0, s) := by rw [getByName, hn, if_neg hlt]
        obtain ⟨new, hh, -⟩ := ih h
        rw [hg]
        refine ⟨new, hh, fun all hs hns he hc => ?_⟩
        have hnd : (name :: seen).Nodup := nodup_cons.mpr ⟨(h.fresh name hn).1, h.nodup⟩
        have hsub : name :: seen ⊆ all := cons_subset.mpr ⟨hns (mem_cons_self ..), hs⟩
        have hle := (hnd.subperm (List.Subset.trans hsub (subset_dedup all))).length_le
        rw [length_cons, ← h.num] at hle
        omega

theorem map_fst_run (max : ℕ) (s : Tags) (names : List Bytes) :
    (run max s names).1.map (·.1) = names := by
  induction names generalizing s with
  | nil => rfl
  | cons name names ih => rw [Tags.run, map_cons, ih]

/-- Names and ids correspond exactly if nobody asks for the reserved name, whose id the first tag is
given as well, and the names are fewer than the limit, beyond which all get that id. -/
theorem oneToOne_iff (max : ℕ) (names : List Bytes) : OneToOne max names ↔
    emptyTag ∉ names ∧ names.dedup.length ≤ max - 1 := by
  obtain ⟨seen, hh, ha⟩ := (holds_init : Holds max init []).run names
  constructor
  · rintro ⟨hi, hown⟩
    have hsub : names ⊆ seen := by
      intro name hm
      rw [← map_fst_run max init names] at hm
      obtain ⟨p, hp, rfl⟩ := List.mem_map.mp hm
      have hg := hown p hp fun q hq => (hi p hp q hq).mpr
      rw [hh.getById] at hg
      exact mem_of_getElem? hg
    have hle :=
      ((nodup_dedup names).subperm (List.Subset.trans (dedup_subset names) hsub)).length_le
    exact ⟨fun hm => hh.free (hsub hm), hle.trans hh.le⟩
  · rintro ⟨he, hc⟩
    have hid := ha names (nil_subset _) (Subset.refl _) he hc
    refine ⟨fun p hp q hq => ⟨fun heq => ?_, fun heq => ?_⟩, fun p hp _ => ?_⟩
    · obtain ⟨hlt, -⟩ := List.getElem?_eq_some_iff.mp (hid p hp)
      exact (getElem?_inj hlt hh.nodup).mp (by rw [hid p hp, hid q hq, heq])
    · exact Option.some.inj ((hid p hp).symm.trans (heq ▸ hid q hq))
    · rw [hh.getById, hid p hp]

/-- The reserved name has the id of the first tag. -/
theorem first_tag_shared : ¬OneToOne 16384 [emptyTag, [0x78]] := by
  intro h
  exact absurd (h.1 (emptyTag, 0) (by decide) ([0x78], 0) (by decide)) (by decide)

end Tags
end SyslogNg.LogMsg
