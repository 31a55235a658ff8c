import SyslogNg.SyslogFormat.Date

/-!
# Host names

`log_msg_parse_hostname` of `modules/syslogformat/syslog-format.c`, and what its check does.
-/
namespace SyslogNg.SyslogFormat

namespace Cursor

variable (c : Cursor)

def isAt (b : UInt8) : Option Bool := if c.left = 0 then some false else (c.byte 0).map (· == b)

/-- The loop of `log_msg_parse_hostname`, with place for so many bytes. -/
def spanAtMost (p : UInt8 → Bool) : ℕ → Bytes → ℤ → Option (Bytes × Cursor)
  | _, [], left => if left = 0 then some ([], ⟨[], 0⟩) else none
  | 0, b :: rest, left => some ([], ⟨b :: rest, left⟩)
  | place + 1, b :: rest, left =>
    if left = 0 then some ([], ⟨b :: rest, 0⟩)
    else if p b then (spanAtMost p place rest (left - 1)).map fun r => (b :: r.1, r.2)
    else some ([], ⟨b :: rest, left⟩)

variable {b : UInt8} {rest : Bytes} {left : ℤ}

@[simp]
theorem step_cons : (⟨b :: rest, left⟩ : Cursor).step 1 = ⟨rest, left - 1⟩ := rfl

theorem isAt_cons (hl : left ≠ 0) (x : UInt8) :
    (⟨b :: rest, left⟩ : Cursor).isAt x = some (b == x) := if_neg hl

end Cursor

/-- The characters that `_init_parse_hostname_invalid_chars` leaves out. -/
def isHostnameChar (i : ℕ) : Bool :=
  (0x41 ≤ i && i ≤ 0x5a) || (0x61 ≤ i && i ≤ 0x7a) || (0x30 ≤ i && i ≤ 0x39) ||
    [0x2d, 0x5f, 0x2e, 0x3a, 0x40, 0x2f].contains i

/-- `invalid_chars[0]`: the index is the character shifted by 8 and not by 3, so that this is the
only one which is used. -/
def invalidChars : ℕ :=
  (List.range 256).foldl (fun bits i =>
    if isHostnameChar i then bits else bits ||| 2 ^ (i % 8)) 0 ||| 1

/-- `log_msg_parse_hostname`: the name, if there is one with a blank behind it. -/
def parseHostname (c : Cursor) (opts : ParseOptions) (badHostname : Bytes → Bool) :
    Option (Option Bytes × Cursor) := do
  let name ← Cursor.spanAtMost (fun b => b != 0x20 && b != 0x3a && b != 0x5b &&
    !(opts.checkHostname && invalidChars.testBit (b.toNat % 8))) 255 c.rest c.left
  if (← name.2.isAt 0x20) && !badHostname (name.1.takeWhile (· != 0)) then
    some (some name.1, name.2)
  else some (none, c)

namespace Parse

variable (s : Parse)

def moveTo (c : Cursor) : Parse := { s with cursor := c }

def setValue (name : ValueName) (value : Bytes) : Parse :=
  { s with msg := s.msg.setValue name value }

end Parse

/-! ### Checked host names -/

def isHostnameByte (b : UInt8) : Bool :=
  (0x41 ≤ b && b ≤ 0x5a) || (0x61 ≤ b && b ≤ 0x7a) || (0x30 ≤ b && b ≤ 0x39) ||
    [0x2d, 0x5f, 0x2e, 0x40, 0x2f].contains b

/-- A host name at the cursor: what stands before the first blank -/
structure HostnameAt (c : Cursor) (host : Bytes) : Prop where
  text : ∃ behind, c.rest.take c.left.toNat = host ++ 0x20 :: behind
  length : host.length ≤ 255
  bytes : ∀ b ∈ host, isHostnameByte b = true

/-- What a check of host names is for: exactly the host names are found, with the cursor left at the
blank behind them. -/
structure ChecksHostname (c : Cursor) (result : Option (Option Bytes × Cursor)) : Prop where
  found : ∀ host, HostnameAt c host → result = some (some host, c.step host.length)
  missing : (∀ host, ¬HostnameAt c host) → result = some (none, c)

theorem HostnameAt.blank_not_mem {c : Cursor} {host : Bytes} (h : HostnameAt c host) :
    0x20 ∉ host := by
  intro hm
  have hb := h.bytes _ hm
  revert hb
  decide

/-- Every bit of the table is set: each remainder modulo 8 has a byte that is in no host name. -/
theorem testBit_invalidChars (b : UInt8) : invalidChars.testBit (b.toNat % 8) = true := by
  have ha : ∀ i : Fin 8, invalidChars.testBit i = true := by decide +kernel
  exact ha ⟨b.toNat % 8, Nat.mod_lt _ (by decide)⟩

theorem Cursor.spanAtMost_false {p : UInt8 → Bool} (hp : ∀ b, p b = false) {place : ℕ}
    {rest : Bytes} {left : ℤ} (hl : left ≤ rest.length) (hps : 0 ≤ left) :
    spanAtMost p place rest left = some ([], ⟨rest, left⟩) := by
  cases rest with
  | nil =>
    obtain rfl : left = 0 := le_antisymm hl hps
    cases place <;> rfl
  | cons b rest =>
    cases place with
    | zero => rfl
    | succ place =>
      rw [spanAtMost, hp b]
      by_cases hz : left = 0
      · rw [if_pos hz, hz]
      · rw [if_neg hz, if_neg Bool.false_ne_true]

/-- With the check every byte ends the name. -/
theorem parseHostname_checked {c : Cursor} {opts : ParseOptions} (hc : opts.checkHostname = true)
    (hl : c.left ≤ c.rest.length) (hp : 0 ≤ c.left) : parseHostname c opts (fun _ => false) =
      if 0 < c.left ∧ c.rest.head? = some 0x20 then some (some [], c) else some (none, c) := by
  obtain ⟨rest, left⟩ := c
  have hs : Cursor.spanAtMost (fun b => b != 0x20 && b != 0x3a && b != 0x5b &&
      !(opts.checkHostname && invalidChars.testBit (b.toNat % 8))) 255 rest left =
        some ([], ⟨rest, left⟩) := by
    apply Cursor.spanAtMost_false _ hl hp
    intro b
    rw [hc, testBit_invalidChars]
    simp
  simp only [parseHostname, hs, Option.bind_eq_bind, Option.bind_some]
  by_cases hz : left = 0
  · subst hz
    simp [Cursor.isAt]
  · cases rest with
    | nil =>
      exact absurd (le_antisymm hl hp) hz
    | cons b rest =>
      have hlt : 0 < left := lt_of_le_of_ne hp (Ne.symm hz)
      rw [Cursor.isAt_cons hz]
      by_cases hb : b = 0x20 <;> simp [hlt]

theorem hostnameAt_nil_iff {c : Cursor} (hp : 0 ≤ c.left) :
    HostnameAt c [] ↔ 0 < c.left ∧ c.rest.head? = some 0x20 := by
  have ht : (∃ behind, c.rest.take c.left.toNat = [] ++ 0x20 :: behind) ↔
      0 < c.left ∧ c.rest.head? = some 0x20 := by
    simp only [List.nil_append, ← List.head?_eq_some_iff, List.head?_take,
      Option.ite_none_left_eq_some]
    exact and_congr_left' (by omega)
  exact ⟨fun h => ht.mp h.text, fun h => ⟨ht.mpr h, by simp, by simp⟩⟩

/-- The check is right exactly where there is no host name, or an empty one. -/
theorem parseHostname_checks_iff {c : Cursor} {opts : ParseOptions}
    (hcheck : opts.checkHostname = true) (hleft : c.left ≤ c.rest.length) (hpos : 0 ≤ c.left) :
    ChecksHostname c (parseHostname c opts fun _ => false) ↔
      ∀ host, HostnameAt c host → host = [] := by
  rw [parseHostname_checked hcheck hleft hpos]
  constructor
  · intro hc host hh
    have hf := hc.found host hh
    split_ifs at hf with hb
    · rw [Option.some.injEq, Prod.mk.injEq, Option.some.injEq] at hf
      exact hf.1.symm
    · simp at hf
  · intro he
    constructor
    · intro host hh
      obtain rfl := he host hh
      have hs : c.step 0 = c := by simp [Cursor.step]
      rw [if_pos ((hostnameAt_nil_iff hpos).mp hh), List.length_nil, hs]
    · intro hn
      rw [if_neg fun hb => hn [] ((hostnameAt_nil_iff hpos).mpr hb)]

/-- A cursor at ` x` -/
theorem parseHostname_checks_blank : ChecksHostname ⟨[0x20, 0x78], 2⟩
    (parseHostname ⟨[0x20, 0x78], 2⟩ { checkHostname := true } fun _ => false) := by
  apply (parseHostname_checks_iff rfl (by decide) (by decide)).mpr
  rintro host hh
  cases host with
  | nil => rfl
  | cons b host =>
    obtain ⟨behind, ht⟩ := hh.text
    have hb : b = 0x20 := (List.cons.inj ht).1.symm
    exact absurd (hb ▸ List.mem_cons_self) hh.blank_not_mem

/-- A cursor at `h x`: there is a host name, and none is found. -/
theorem parseHostname_checks_none : HostnameAt ⟨[0x68, 0x20, 0x78], 3⟩ [0x68] ∧
    parseHostname ⟨[0x68, 0x20, 0x78], 3⟩ { checkHostname := true } (fun _ => false) =
      some (none, ⟨[0x68, 0x20, 0x78], 3⟩) := by
  constructor
  · exact ⟨⟨[0x78], rfl⟩, by decide, List.forall_mem_singleton.mpr rfl⟩
  · exact (parseHostname_checked rfl (by decide) (by decide)).trans (if_neg (by decide))

end SyslogNg.SyslogFormat
