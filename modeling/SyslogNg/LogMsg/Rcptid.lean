import SyslogNg.Foundations.ByteOrder
import SyslogNg.Foundations.Run

/-!
# Receipt ids

`log_msg_create_rcptid` of `lib/logmsg.c` hands out the numbers of a counter that is kept in memory
and, after every call, in the entry `next.rcptid` of the persist state. The entry outlives the
process and may be taken over by a host of the other byte order. It says in which order it was
written with a bit-field, and the place of this bit in its byte is up to the host as well.
-/
namespace SyslogNg.LogMsg

open List Function

/-- What the layout of `RcptidState` in memory depends on: compilers for little-endian hosts begin
with the lowest bit of a byte for a bit-field, those for big-endian hosts with the highest one. -/
structure Host where
  order : ByteOrder
  flagBit : Fin 8
  deriving DecidableEq

/-- `RcptidState` in the persist state, with the bits of the byte that `big_endian` is in, and the
bytes of `g_rcptid` -/
structure RcptidState where
  version : ℕ
  bits : Fin 8 → Bool
  rcptid : List UInt8
  deriving DecidableEq

namespace RcptidState

variable (data : RcptidState) (host : Host)

def bigEndian : Bool := data.bits host.flagBit

def value : ℕ := host.order.decode data.rcptid

def setValue (n : ℕ) : RcptidState := { data with rcptid := host.order.encode 8 n }

def setBigEndian (bigEndian : Bool) : RcptidState :=
  { data with bits := update data.bits host.flagBit bigEndian }

@[simp]
theorem bits_setValue_setBigEndian (bigEndian : Bool) (n : ℕ) :
    ((data.setBigEndian host bigEndian).setValue host n).bits host.flagBit = bigEndian :=
  update_self ..

end RcptidState

/-- `log_msg_init_rcptid`: the entry and the counter in memory, unless it returns `FALSE`. A new
entry is filled with zeros. -/
def initRcptid (host : Host) : Option RcptidState → Option (RcptidState × ℕ)
  | some data =>
    if data.version > 0 then none
    else if data.bigEndian host ∧ host.order = .little ∨
        ¬ data.bigEndian host ∧ host.order = .big then
      let n := ByteOrder.swap 8 (data.value host)
      some ((data.setBigEndian host (!data.bigEndian host)).setValue host n, n)
    else some (data, data.value host)
  | none =>
    let data : RcptidState := ⟨0, fun _ => false, List.replicate 8 0⟩
    some ((data.setBigEndian host (host.order = .big)).setValue host 1, 1)

inductive CreatePc
  | outside
  /-- `rcptcfg_state` is set; before the mutex is locked. -/
  | entered
  | locked
  /-- The message has its id and the counter was incremented. -/
  | taken
  /-- The counter was tested for zero. -/
  | counted
  /-- The entry was written. -/
  | written
  deriving DecidableEq

/-- Whether a thread at this point holds the mutex. -/
def CreatePc.inside : CreatePc → Bool
  | outside => false
  | entered => false
  | locked => true
  | taken => true
  | counted => true
  | written => true

/-- The persist state, the process that runs, with its threads, and the ids handed out so far -/
structure Receipts (ι : Type*) where
  /-- The host, while `rcptcfg_state` is set -/
  host : Option Host
  entry : Option RcptidState
  /-- `g_rcptidstate.g_rcptid` -/
  counter : ℕ
  /-- The thread that holds `g_mutex1` -/
  owner : Option ι
  pc : ι → CreatePc
  ids : List ℕ

inductive ReceiptOp (ι : Type*)
  /-- `log_msg_init_rcptid` of a new process or a new configuration -/
  | init (host : Host)
  /-- `log_msg_deinit_rcptid`, or the end of the process -/
  | deinit
  | enter (t : ι)
  | lock (t : ι)
  | take (t : ι)
  | wrap (t : ι)
  | write (t : ι)
  | unlock (t : ι)

namespace Receipts

variable {ι : Type*} [DecidableEq ι] (s : Receipts ι)

def start : Receipts ι := ⟨none, none, 0, none, fun _ => .outside, []⟩

/-- Where the thread is that holds the mutex -/
def holder : Option CreatePc := s.owner.map s.pc

def moveTo (t : ι) (pc : CreatePc) : Receipts ι := { s with pc := update s.pc t pc }

/-- What an operation does, if it is possible: initialisation and the end of a process are between
two calls, and a thread goes on from where it is. -/
def step (s : Receipts ι) : ReceiptOp ι → Receipts ι → Prop
  | .init host, s' => (∀ t, s.pc t = .outside) ∧ ∃ stored, initRcptid host s.entry = some stored ∧
      s' = { s with host := some host, entry := some stored.1, counter := stored.2 }
  | .deinit, s' => (∀ t, s.pc t = .outside) ∧ s' = { s with host := none }
  | .enter t, s' => s.pc t = .outside ∧ s.host.isSome ∧ s' = s.moveTo t .entered
  | .lock t, s' => s.pc t = .entered ∧ s.owner = none ∧
      s' = { s.moveTo t .locked with owner := some t }
  | .take t, s' => s.pc t = .locked ∧
      s' = { s.moveTo t .taken with
        ids := s.ids ++ [s.counter]
        counter := (s.counter + 1) % 2 ^ 64 }
  | .wrap t, s' => s.pc t = .taken ∧
      s' = { s.moveTo t .counted with
        counter := if s.counter = 0 then s.counter + 1 else s.counter }
  | .write t, s' => s.pc t = .counted ∧ ∃ host data, s.host = some host ∧ s.entry = some data ∧
      s' = { s.moveTo t .written with entry := some (data.setValue host s.counter) }
  | .unlock t, s' => s.pc t = .written ∧ s' = { s.moveTo t .outside with owner := none }

variable (ι) in
def system : System (Receipts ι) (ReceiptOp ι) where
  init s := s = start
  step := step

/-- The hosts that take the entry over have the flag in the same bit. -/
def SameBit (bit : Fin 8) (_ : Receipts ι) : ReceiptOp ι → Prop
  | .init host => host.flagBit = bit
  | _ => True

end Receipts

/-! ### The invariant -/

/-- The id that follows when `k` were handed out: zero is left out. -/
def nextId (k : ℕ) : ℕ := k % (2 ^ 64 - 1) + 1

theorem nextId_lt (k : ℕ) : nextId k < 256 ^ 8 := by
  unfold nextId
  omega

theorem nextId_succ (k : ℕ) : nextId (k + 1) =
    if (nextId k + 1) % 2 ^ 64 = 0 then (nextId k + 1) % 2 ^ 64 + 1
    else (nextId k + 1) % 2 ^ 64 := by
  unfold nextId
  split <;> omega

/-- An entry with this number that was written in byte order `o`, on hosts with the flag in this
bit -/
structure RcptidState.Holds (data : RcptidState) (bit : Fin 8) (o : ByteOrder) (n : ℕ) : Prop where
  version : data.version = 0
  flag : data.bits bit = decide (o = .big)
  bytes : data.rcptid = o.encode 8 n

variable {data : RcptidState} {host : Host}

/-- The entry is taken over with its number, whichever order it was written in. -/
theorem initRcptid_holds {bit : Fin 8} {o : ByteOrder} {n : ℕ}
    (h : data.Holds bit o n) (hn : n < 256 ^ 8) (hb : host.flagBit = bit) :
    ∃ data', initRcptid host (some data) = some (data', n) ∧ data'.Holds bit host.order n := by
  have hv : ¬ data.version > 0 := by
    rw [h.version]
    exact Nat.lt_irrefl 0
  have hf : data.bigEndian host = decide (o = .big) := by rw [RcptidState.bigEndian, hb, h.flag]
  rcases host.order.eq_or_eq_other o with rfl | rfl
  · have hsm : ¬ (data.bigEndian host ∧ host.order = .little ∨
        ¬ data.bigEndian host ∧ host.order = .big) := by
      rw [hf]
      cases host.order <;> decide
    have hvl : data.value host = n := by
      rw [RcptidState.value, h.bytes, ByteOrder.decode_encode _ hn]
    refine ⟨data, ?_, h⟩
    rw [initRcptid, if_neg hv, if_neg hsm, hvl]
  · have hs : data.bigEndian host ∧ host.order = .little ∨
        ¬ data.bigEndian host ∧ host.order = .big := by
      rw [hf]
      cases host.order <;> decide
    have hvl : ByteOrder.swap 8 (data.value host) = n := by
      have ho : host.order.other.other = host.order := by cases host.order <;> rfl
      have hr := host.order.other.decode_other_encode 8 n
      rw [ho] at hr
      rw [RcptidState.value, h.bytes, hr, ByteOrder.swap_swap hn]
    refine ⟨(data.setBigEndian host (!data.bigEndian host)).setValue host n, ?_, h.version, ?_, rfl⟩
    · rw [initRcptid, if_neg hv, if_pos hs, hvl]
    · rw [← hb, RcptidState.bits_setValue_setBigEndian, hf]
      cases host.order <;> rfl

theorem initRcptid_none (host : Host) :
    ∃ data, initRcptid host none = some (data, 1) ∧ data.Holds host.flagBit host.order 1 := by
  refine ⟨_, rfl, rfl, ?_, rfl⟩
  exact RcptidState.bits_setValue_setBigEndian ..

namespace Receipts

variable {ι : Type*} [DecidableEq ι] {bit : Fin 8}

structure Invariant (bit : Fin 8) (s : Receipts ι) : Prop where
  ids : s.ids = (List.range s.ids.length).map nextId
  sameBit : ∀ host, s.host = some host → host.flagBit = bit
  quiet : s.host = none → ∀ t, s.pc t = .outside
  mutex : ∀ t, (s.pc t).inside = true ↔ s.owner = some t
  fresh : s.entry = none → s.host = none ∧ s.ids = []
  stored : ∀ data, s.entry = some data → ∃ o n, data.Holds bit o n ∧
    (∀ host, s.host = some host → host.order = o) ∧
    (s.holder ≠ some .taken → s.holder ≠ some .counted → n = nextId s.ids.length)
  counter : s.host ≠ none → s.holder ≠ some .taken → s.counter = nextId s.ids.length
  taken : s.holder = some .taken → ∃ k, s.ids.length = k + 1 ∧
    s.counter = (nextId k + 1) % 2 ^ 64

namespace Invariant

variable {s s' : Receipts ι} {t : ι}

theorem start : Invariant bit (start : Receipts ι) where
  ids := rfl
  sameBit := by simp [Receipts.start]
  quiet := by simp [Receipts.start]
  mutex := by simp [Receipts.start, CreatePc.inside]
  fresh := by simp [Receipts.start]
  stored := by simp [Receipts.start]
  counter := by simp [Receipts.start]
  taken := by simp [Receipts.start, holder]

section

variable (h : s.Invariant bit)
include h

theorem holder_of_quiet (hq : ∀ t, s.pc t = .outside) : s.holder = none := by
  cases ho : s.owner with
  | none => rw [holder, ho, Option.map_none]
  | some t =>
    have hi := (h.mutex t).2 ho
    rw [hq t] at hi
    cases hi

theorem host_ne_none (ht : s.pc t ≠ .outside) : s.host ≠ none :=
  fun hn => ht (h.quiet hn t)

theorem at_inside {pc : CreatePc} (ht : s.pc t = pc)
    (hpc : pc.inside = true) : s.owner = some t ∧ s.holder = some pc ∧ s.host ≠ none := by
  subst ht
  have ho := (h.mutex t).1 hpc
  refine ⟨ho, by rw [holder, ho, Option.map_some], h.host_ne_none (t := t) fun hot => ?_⟩
  rw [hot] at hpc
  cases hpc

theorem init (hb : host.flagBit = bit) (hq : ∀ t, s.pc t = .outside) {stored : RcptidState × ℕ}
    (hi : initRcptid host s.entry = some stored) :
    Invariant bit { s with host := some host, entry := some stored.1, counter := stored.2 } := by
  have hh := h.holder_of_quiet hq
  obtain ⟨hnm, hhl⟩ : stored.2 = nextId s.ids.length ∧
      stored.1.Holds bit host.order (nextId s.ids.length) := by
    cases he : s.entry with
    | none =>
      obtain ⟨data, hd, hhl⟩ := initRcptid_none host
      rw [he, hd] at hi
      rw [← Option.some.inj hi, (h.fresh he).2]
      exact ⟨rfl, hb ▸ hhl⟩
    | some data =>
      obtain ⟨o, n, ho, -, hn⟩ := h.stored data he
      have hn := hn (by simp [hh]) (by simp [hh])
      obtain ⟨data', hd, hhl⟩ := initRcptid_holds ho (hn ▸ nextId_lt _) hb
      rw [he, hd] at hi
      rw [← Option.some.inj hi, ← hn]
      exact ⟨rfl, hhl⟩
  exact { h with
    sameBit := by simp [hb]
    quiet := by simp
    fresh := by simp
    stored := by
      rintro data ⟨rfl⟩
      exact ⟨host.order, _, hhl, by simp, fun _ _ => rfl⟩
    counter := fun _ _ => hnm
    taken := fun ht => by
      rw [show s.holder = _ from ht] at hh
      cases hh }

theorem deinit (hq : ∀ t, s.pc t = .outside) : Invariant bit { s with host := none } :=
  { h with
    sameBit := by simp
    quiet := fun _ => hq
    fresh := fun he => ⟨rfl, (h.fresh he).2⟩
    stored := by
      intro data hd
      obtain ⟨o, n, ho, -, hn⟩ := h.stored data hd
      exact ⟨o, n, ho, by simp, hn⟩
    counter := by simp }

/-- The mutex after a move of one thread: it holds it exactly when it is inside. -/
theorem mutex_moveTo {pc : CreatePc} {owner : Option ι} (hs : pc.inside = true ↔ owner = some t)
    (ho : ∀ t', t' ≠ t → (s.owner = some t' ↔ owner = some t')) (t' : ι) :
    ((update s.pc t pc) t').inside = true ↔ owner = some t' := by
  rcases eq_or_ne t' t with rfl | hne
  · rw [update_self]
    exact hs
  · rw [update_of_ne hne, h.mutex t', ho t' hne]

theorem enter (ht : s.pc t = .outside) (hhs : s.host.isSome) :
    (s.moveTo t .entered).Invariant bit := by
  have ho : s.owner ≠ some t := by
    rw [Ne, ← h.mutex t, ht]
    decide
  have hh : (s.moveTo t .entered).holder = s.holder := by
    apply Option.map_congr
    intro t' ht'
    apply update_of_ne
    rintro rfl
    exact ho ht'
  exact { h with
    quiet := fun hn => by
      rw [show s.host = none from hn] at hhs
      cases hhs
    mutex := h.mutex_moveTo (by simpa [CreatePc.inside, moveTo] using ho) fun _ _ => Iff.rfl
    stored := by
      rw [hh]
      exact h.stored
    counter := by
      rw [hh]
      exact h.counter
    taken := by
      rw [hh]
      exact h.taken }

theorem lock (ht : s.pc t = .entered) (how : s.owner = none) :
    Invariant bit { s.moveTo t .locked with owner := some t } := by
  have hh := h.host_ne_none (t := t) (by simp [ht])
  have hf : s.holder = none := by rw [holder, how, Option.map_none]
  have hhl : holder { s.moveTo t .locked with owner := some t } = some .locked := by
    simp [holder, moveTo]
  exact { h with
    quiet := fun hnn => absurd hnn hh
    mutex := h.mutex_moveTo (by simp [CreatePc.inside]) fun t' hne => by simp [how, hne.symm]
    stored := by
      intro data hd
      obtain ⟨o, n, hol, ho, hn⟩ := h.stored data hd
      exact ⟨o, n, hol, ho, fun _ _ => hn (by simp [hf]) (by simp [hf])⟩
    counter := fun hh _ => h.counter hh (by simp [hf])
    taken := by
      rw [hhl]
      simp }

theorem mutex_inside (ho : s.owner = some t) {pc : CreatePc} (hpc : pc.inside = true) (t' : ι) :
    ((update s.pc t pc) t').inside = true ↔ s.owner = some t' :=
  h.mutex_moveTo (by simp [hpc, ho]) (fun _ _ => Iff.rfl) t'

end

theorem holder_moveTo (ho : s.owner = some t) (pc : CreatePc) :
    (s.moveTo t pc).holder = some pc := by
  simp [holder, moveTo, ho]

section

variable (h : s.Invariant bit)
include h

theorem take (ht : s.pc t = .locked) : Invariant bit { s.moveTo t .taken with
      ids := s.ids ++ [s.counter]
      counter := (s.counter + 1) % 2 ^ 64 } := by
  obtain ⟨how, hl, hhs⟩ := h.at_inside ht rfl
  have hc := h.counter hhs (by simp [hl])
  have hh := holder_moveTo how .taken
  exact { h with
    ids := by
      rw [length_append, length_singleton, range_succ, map_append, ← h.ids,
        hc]
      rfl
    quiet := fun hn => absurd hn hhs
    mutex := h.mutex_inside how rfl
    fresh := fun he => absurd (h.fresh he).1 hhs
    stored := by
      intro data hd
      obtain ⟨o, n, hol, ho, -⟩ := h.stored data hd
      exact ⟨o, n, hol, ho, fun htk => absurd hh htk⟩
    counter := fun _ htk => absurd hh htk
    taken := fun _ => ⟨s.ids.length, by simp, by rw [hc]⟩ }

theorem wrap (ht : s.pc t = .taken) : Invariant bit { s.moveTo t .counted with
      counter := if s.counter = 0 then s.counter + 1 else s.counter } := by
  obtain ⟨how, htk, hhs⟩ := h.at_inside ht rfl
  have hh := holder_moveTo how .counted
  obtain ⟨k, hk, hc⟩ := h.taken htk
  exact { h with
    quiet := fun hn => absurd hn hhs
    mutex := h.mutex_inside how rfl
    stored := by
      intro data hd
      obtain ⟨o, n, hol, ho, -⟩ := h.stored data hd
      exact ⟨o, n, hol, ho, fun _ hcn => absurd hh hcn⟩
    counter := fun _ _ => by
      change (if s.counter = 0 then s.counter + 1 else s.counter) = nextId s.ids.length
      rw [hc, hk, nextId_succ]
    taken := fun htk => by
      rw [show (s.moveTo t .counted).holder = _ from htk] at hh
      cases hh }

theorem write (ht : s.pc t = .counted) (hhs : s.host = some host) (hd : s.entry = some data) :
    Invariant bit { s.moveTo t .written with entry := some (data.setValue host s.counter) } := by
  obtain ⟨how, hcn, -⟩ := h.at_inside ht rfl
  have hc := h.counter (by simp [hhs]) (by simp [hcn])
  have hh := holder_moveTo how .written
  obtain ⟨o, n, hol, ho, -⟩ := h.stored data hd
  exact { h with
    quiet := fun hn => absurd hn (by simp [moveTo, hhs])
    mutex := h.mutex_inside how rfl
    fresh := by simp
    stored := by
      rintro data' ⟨rfl⟩
      have hor := ho host hhs
      exact ⟨o, s.counter, ⟨hol.version, hol.flag, by rw [← hor]; rfl⟩, ho, fun _ _ => hc⟩
    counter := fun _ _ => hc
    taken := fun htk => by
      rw [show (s.moveTo t .written).holder = _ from htk] at hh
      cases hh }

theorem unlock (ht : s.pc t = .written) :
    Invariant bit { s.moveTo t .outside with owner := none } := by
  obtain ⟨how, hw, hh⟩ := h.at_inside ht rfl
  exact { h with
    quiet := fun hnn => absurd hnn hh
    mutex := h.mutex_moveTo (by simp [CreatePc.inside]) fun t' hne => by simp [how, hne.symm]
    stored := by
      intro data hd
      obtain ⟨o, n, hol, ho, hn⟩ := h.stored data hd
      exact ⟨o, n, hol, ho, fun _ _ => hn (by simp [hw]) (by simp [hw])⟩
    counter := fun hh _ => h.counter hh (by simp [hw])
    taken := by simp [holder] }

theorem step {op : ReceiptOp ι} (hb : SameBit bit s op)
    (hs : s.step op s') : s'.Invariant bit := by
  cases op with
  | init host =>
    obtain ⟨hq, stored, hi, rfl⟩ := hs
    exact h.init hb hq hi
  | deinit =>
    obtain ⟨hq, rfl⟩ := hs
    exact h.deinit hq
  | enter t =>
    obtain ⟨ht, hh, rfl⟩ := hs
    exact h.enter ht hh
  | lock t =>
    obtain ⟨ht, ho, rfl⟩ := hs
    exact h.lock ht ho
  | take t =>
    obtain ⟨ht, rfl⟩ := hs
    exact h.take ht
  | wrap t =>
    obtain ⟨ht, rfl⟩ := hs
    exact h.wrap ht
  | write t =>
    obtain ⟨ht, host, data, hh, hd, rfl⟩ := hs
    exact h.write ht hh hd
  | unlock t =>
    obtain ⟨ht, rfl⟩ := hs
    exact h.unlock ht

end

theorem reachable (h : ((system ι).restrict (SameBit bit)).Reachable s) : s.Invariant bit := by
  refine h.invariant ?_ ?_
  · rintro s rfl
    exact Invariant.start
  · intro s op s' hs hst
    exact hs.step hst.1 hst.2

end Invariant

/-- The first `2 ^ 64 - 1` ids in the order in which they are handed out -/
theorem pairwise_nextId {k : ℕ} (hk : k ≤ 2 ^ 64 - 1) :
    ((List.range k).map nextId).Pairwise (· < ·) := by
  rw [pairwise_map]
  refine pairwise_lt_range.imp_of_mem ?_
  intro i j hi hj hij
  rw [mem_range] at hi hj
  rw [nextId, nextId, Nat.mod_eq_of_lt (by omega)]
  omega

/-- Receipt ids are not zero, differ and increase over any calls of any threads and any restarts,
as long as all hosts have the flag of the byte order in the same bit. -/
theorem rcptids_unique (bit : Fin 8) (s : Receipts ι)
    (h : ((system ι).restrict (SameBit bit)).Reachable s) (hcount : s.ids.length ≤ 2 ^ 64 - 1) :
    (∀ id ∈ s.ids, id ≠ 0) ∧ s.ids.Nodup ∧ s.ids.Pairwise (· < ·) := by
  have hi := (Invariant.reachable h).ids
  have hs : s.ids.Pairwise (· < ·) := by
    rw [hi]
    exact pairwise_nextId hcount
  refine ⟨fun id hid => ?_, hs.imp Nat.ne_of_lt, hs⟩
  rw [hi, List.mem_map] at hid
  obtain ⟨i, -, rfl⟩ := hid
  exact Nat.succ_ne_zero _

/-! ### Calls that are not interleaved -/

section Calls

def afterCall (host : Host) (data : RcptidState) (s : Receipts ι) : Receipts ι :=
  let counter := (s.counter + 1) % 2 ^ 64
  let counter := if counter = 0 then counter + 1 else counter
  { s with
    ids := s.ids ++ [s.counter]
    counter
    entry := some (data.setValue host counter) }

theorem reachable_afterCall {ok : Receipts ι → ReceiptOp ι → Prop} {s : Receipts ι}
    (t : ι) (hok : ∀ s op, (∀ host, op ≠ .init host) → ok s op)
    (h : ((system ι).restrict ok).Reachable s) (ht : s.pc t = .outside) (ho : s.owner = none)
    (hh : s.host = some host) (hd : s.entry = some data) :
    ((system ι).restrict ok).Reachable (s.afterCall host data) := by
  have he := h.step (a := .enter t) ⟨hok _ _ nofun, ht, by simp [hh], rfl⟩
  have hl := he.step (a := .lock t)
    ⟨hok _ _ nofun, update_self .., ho, rfl⟩
  have htk := hl.step (a := .take t) ⟨hok _ _ nofun, update_self .., rfl⟩
  have hc := htk.step (a := .wrap t) ⟨hok _ _ nofun, update_self .., rfl⟩
  have hw := hc.step (a := .write t)
    ⟨hok _ _ nofun, update_self .., host, data, hh, hd, rfl⟩
  have hu := hw.step (a := .unlock t)
    ⟨hok _ _ nofun, update_self .., rfl⟩
  convert hu using 1
  simp only [afterCall, moveTo, update_idem]
  rw [← ht, update_eq_self, ← ho]

theorem reachable_init {ok : Receipts ι → ReceiptOp ι → Prop} {s : Receipts ι}
    {n : ℕ} (hok : ok s (.init host))
    (h : ((system ι).restrict ok).Reachable s) (hq : ∀ t, s.pc t = .outside)
    (hi : initRcptid host s.entry = some (data, n)) : ((system ι).restrict ok).Reachable
      { s with host := some host, entry := some data, counter := n } := by
  have hs : ((system ι).restrict ok).step s (.init host)
      { s with host := some host, entry := some data, counter := n } :=
    ⟨hok, hq, (data, n), hi, rfl⟩
  exact h.step hs

def littleHost : Host := ⟨.little, 0⟩

def bigHost : Host := ⟨.big, 7⟩

def session (host : Host) (s : Receipts Unit) : Receipts Unit :=
  match initRcptid host s.entry with
  | some (data, n) =>
    { s with host := some host, entry := some data, counter := n }.afterCall host data
  | none => s

theorem reachable_session {ok : Receipts Unit → ReceiptOp Unit → Prop} {s : Receipts Unit}
    (host : Host) (hc : ∀ s op, (∀ host, op ≠ .init host) → ok s op) (hok : ok s (.init host))
    (h : ((system Unit).restrict ok).Reachable s) (ht : s.pc () = .outside)
    (ho : s.owner = none) : ((system Unit).restrict ok).Reachable (s.session host) := by
  rw [session]
  split
  · next data n hi =>
    exact reachable_afterCall () hc (reachable_init hok h (fun _ => ht) hi) ht ho rfl rfl
  · exact h

end Calls

theorem rcptids_unique_two :
    (∀ id ∈ ([1, 2] : List ℕ), id ≠ 0) ∧ [1, 2].Nodup ∧ [1, 2].Pairwise (· < ·) := by
  have hok : ∀ (s : Receipts Unit) op, (∀ host, op ≠ ReceiptOp.init host) → SameBit 0 s op := by
    intro s op hop
    cases op with
    | init host => exact absurd rfl (hop host)
    | _ => trivial
  have hf := reachable_session littleHost hok rfl (.init rfl) rfl rfl
  have hs := reachable_session littleHost hok rfl hf rfl rfl
  exact rcptids_unique 0 _ hs (by decide)

/-- A call on a big-endian host, one on a little-endian host and again one on the first: the
little-endian host does not find the flag and reads the bytes of 2 in its own order, and the
big-endian host finds its flag and reads what the other one wrote. -/
theorem rcptids_decrease : ∃ s : Receipts Unit, (system Unit).Reachable s ∧
    s.ids = [1, 2 * 2 ^ 56, 2 ^ 56 + 2] := by
  let ok : Receipts Unit → ReceiptOp Unit → Prop := fun _ _ => True
  have hok : ∀ s op, (∀ host, op ≠ ReceiptOp.init host) → ok s op := fun _ _ _ => trivial
  have hf := reachable_session bigHost hok trivial (.init rfl) rfl rfl
  have hs := reachable_session littleHost hok trivial hf rfl rfl
  have ht := reachable_session bigHost hok trivial hs rfl rfl
  exact ⟨_, ht.of_restrict, by decide +kernel⟩

end Receipts
end SyslogNg.LogMsg
