import SyslogNg.PersistState.Load

/-!
# Loading a file with arbitrary content

When the loop of `persist_state_load_v4` ends, and which of its reads stay inside of the mapped
file, for every content of the file.
-/
namespace SyslogNg.Persist

open List Option Image Logged SerializeArchive

variable {f : File} {mode : Mode} {st st' : LoadState} {i : ℕ}

/-- Where `persist_state_load_v4` reads in the mapped file during its first steps. -/
def loadV4Reads (f : File) (mode : Mode) (fuel : ℕ) : List Extent :=
  if f.size > 2 ^ 31 - 1 then []
  else (keyCountOfs, 4) ::
    outputs (loadNext f mode) (fun st => (loadStep f mode st).reads) fuel .start

/-! ### The key at the current position -/

namespace LoadState

def nameLen (f : File) (st : LoadState) : ℕ := f.bytes.read32 (st.keyBlock + st.pos)

def name (f : File) (st : LoadState) : Name :=
  cString (f.bytes.slice (st.keyBlock + st.pos + 4) (st.nameLen f))

def keyOfs (f : File) (st : LoadState) : ℕ :=
  f.bytes.read32 (st.keyBlock + st.pos + 4 + st.nameLen f)

def keyEnd (f : File) (st : LoadState) : ℕ := st.pos + 4 + st.nameLen f + 4

def follow (f : File) (mode : Mode) (st : LoadState) : Logged LoadStep :=
  if st.name f ≠ [] then
    loadEntry f mode (st.name f) (st.keyOfs f) { st with pos := st.keyEnd f, i := st.i + 1 }
  else loadChain f (st.keyOfs f) st.i

def lengthRead (st : LoadState) : Extent := (st.keyBlock + st.pos, 4)

def nameRead (f : File) (st : LoadState) : Extent := (st.keyBlock + st.pos + 4, st.nameLen f)

def ofsRead (f : File) (st : LoadState) : Extent := (st.keyBlock + st.pos + 4 + st.nameLen f, 4)

end LoadState

open LoadState

theorem loadStep_of_not_lt (hi : ¬st.i < keyCount f) : loadStep f mode st = pure .stop := if_neg hi

section Key

variable {sa : SerializeArchive} {name : List UInt8}

theorem loadKey_of_gt (h : sa.pos + 4 > sa.len) : loadKey f mode st name sa = ⟨.stop, []⟩ := by
  unfold loadKey
  rw [readUint32_of_gt h]
  rfl

theorem loadKey_of_le (h : sa.pos + 4 ≤ sa.len) : loadKey f mode st name sa =
    f.bytes.get32 (sa.buff + sa.pos) >>= fun ofs =>
      if cString name ≠ [] then
        loadEntry f mode (cString name) ofs { st with pos := sa.pos + 4, i := st.i + 1 }
      else loadChain f ofs st.i := by
  unfold loadKey
  rw [readUint32_of_le h]
  rfl

end Key

/-- The length, the name and the offset are read one after the other, as far as the block goes. -/
theorem loadStep_of_lt (hi : st.i < keyCount f) : loadStep f mode st =
    if st.pos + 4 > st.keySize then ⟨.stop, []⟩
    else if st.pos + 4 + st.nameLen f > st.keySize then ⟨.stop, [st.lengthRead]⟩
    else if st.keyEnd f > st.keySize then ⟨.stop, [st.lengthRead, st.nameRead f]⟩ else
      ⟨(st.follow f mode).value,
        [st.lengthRead, st.nameRead f, st.ofsRead f] ++ (st.follow f mode).reads⟩ := by
  unfold loadStep
  dsimp only
  split_ifs with hl hn ho
  · rw [readCstring_of_gt hl]
    rfl
  · rw [readCstring_of_name_gt (not_lt.mp hl) hn]
    rfl
  · rw [readCstring_of_le (not_lt.mp hn)]
    simp only [bind]
    rw [loadKey_of_gt ho]
    rfl
  · rw [readCstring_of_le (not_lt.mp hn)]
    simp only [bind]
    rw [loadKey_of_le (not_lt.mp ho)]
    have ho : (st.keyBlock : ℤ) + (st.pos + 4 + f.bytes.read32 (st.keyBlock + st.pos) : ℕ) =
        st.keyBlock + st.pos + 4 + st.nameLen f := by
      push_cast
      rw [nameLen]
      ring
    rw [ho]
    rfl

theorem loadEntry_next (name : Name) (entryOfs : ℕ) (next : LoadState) :
    (loadEntry f mode name entryOfs next).value.next =
      if entryOfs < headerSize ∨ entryOfs > f.size then none else some next := by
  unfold loadEntry
  split_ifs
  · rfl
  · simp only [value_bind]
    split_ifs <;> rfl

theorem loadChain_next (chainOfs i : ℕ) : (loadChain f chainOfs i).value.next =
    if chainOfs = 0 ∨ chainOfs > f.size then none
    else if (chainOfs + f.bytes.read32 (chainOfs - valueHeaderSize)) % 2 ^ 32 > f.size then none
    else some ⟨chainOfs, f.bytes.read32 (chainOfs - valueHeaderSize), 0, i⟩ := by
  unfold loadChain
  split_ifs with ho hs
  · rfl
  · simp only [value_bind, value_get32, hs]
    rfl
  · simp only [value_bind, value_get32, hs]
    rfl

theorem loadNext_of_lt (hi : st.i < keyCount f) : loadNext f mode st =
    if st.keyEnd f > st.keySize then none else (st.follow f mode).value.next := by
  have hle : st.pos + 4 + st.nameLen f ≤ st.keyEnd f := Nat.le_add_right _ _
  rw [loadNext, loadStep_of_lt hi]
  split_ifs
  · rfl
  · omega
  · rfl
  · omega
  · rfl
  · rfl

/-! ### Chains -/

structure KeyBlock where
  ofs : ℕ
  size : ℕ

def KeyBlock.enter (b : KeyBlock) (i : ℕ) : LoadState := ⟨b.ofs, b.size, 0, i⟩

/-- The block begins with an unnamed key, which chains to `b'`, and the load accepts it. -/
structure Links (f : File) (b b' : KeyBlock) : Prop where
  whole : (b.enter 0).keyEnd f ≤ b.size
  unnamed : (b.enter 0).name f = []
  ofs : b'.ofs = (b.enter 0).keyOfs f
  size : b'.size = f.bytes.read32 (b'.ofs - valueHeaderSize)
  ne : b'.ofs ≠ 0
  le : b'.ofs ≤ f.size
  fits : (b'.ofs + b'.size) % 2 ^ 32 ≤ f.size

/-- A step either reads a named key, or follows the chain. -/
theorem loadNext_cases (h : loadNext f mode st = some st') : st.i < keyCount f ∧
    st.keyEnd f ≤ st.keySize ∧
    (st.name f ≠ [] ∧ st' = { st with pos := st.keyEnd f, i := st.i + 1 } ∨
      st.name f = [] ∧ ∃ b : KeyBlock, st' = b.enter st.i ∧ b.ofs = st.keyOfs f ∧
        b.size = f.bytes.read32 (b.ofs - valueHeaderSize) ∧
        b.ofs ≠ 0 ∧ b.ofs ≤ f.size ∧ (b.ofs + b.size) % 2 ^ 32 ≤ f.size) := by
  by_cases hi : st.i < keyCount f
  · rw [loadNext_of_lt hi] at h
    split_ifs at h with he
    refine ⟨hi, not_lt.mp he, ?_⟩
    unfold follow at h
    split_ifs at h with hn
    · rw [loadEntry_next] at h
      split_ifs at h
      exact .inl ⟨hn, (Option.some.inj h).symm⟩
    · rw [loadChain_next] at h
      split_ifs at h with ho hf
      push Not at ho
      exact .inr ⟨not_not.mp hn, ⟨_, _⟩, (Option.some.inj h).symm, rfl, rfl, ho.1, ho.2,
        not_lt.mp hf⟩
  · rw [loadNext, loadStep_of_not_lt hi] at h
    cases h

theorem links_of_loadNext {b : KeyBlock} (h : loadNext f mode (b.enter i) = some st')
    (hi : st'.i = i) : ∃ b', st' = b'.enter i ∧ Links f b b' := by
  obtain ⟨_, he, ⟨_, heq⟩ | ⟨hn, b', heq, ho, hs, hne, hle, hf⟩⟩ := loadNext_cases h
  · rw [heq] at hi
    exact absurd hi (Nat.succ_ne_self i)
  · exact ⟨b', heq, he, hn, ho, hs, hne, hle, hf⟩

theorem loadNext_of_links {b b' : KeyBlock} (hi : i < keyCount f) (h : Links f b b') :
    loadNext f mode (b.enter i) = some (b'.enter i) := by
  have hf : (b.enter i).follow f mode = loadChain f b'.ofs i := by
    rw [h.ofs]
    exact if_neg (not_not.mpr h.unnamed)
  have he : (b.enter i).keyEnd f ≤ (b.enter i).keySize := h.whole
  have ho : ¬(b'.ofs = 0 ∨ b'.ofs > f.size) := by
    have := h.ne
    have := h.le
    omega
  have hft := h.fits
  rw [h.size] at hft
  have hlt : (b.enter i).i < keyCount f := hi
  rw [loadNext_of_lt hlt, if_neg (not_lt.mpr he), hf, loadChain_next, if_neg ho,
    if_neg (not_lt.mpr hft), ← h.size]
  rfl

/-! ### Termination -/

theorem le_of_loadNext (h : loadNext f mode st = some st') : st.i ≤ st'.i := by
  obtain ⟨_, _, ⟨_, rfl⟩ | ⟨_, b, rfl, _⟩⟩ := loadNext_cases h
  · exact Nat.le_succ _
  · exact le_rfl

theorem le_of_visits (h : Visits (loadNext f mode) st st') : st.i ≤ st'.i :=
  h.invariant (I := fun t => st.i ≤ t.i) (fun _ _ hle hn => hle.trans (le_of_loadNext hn))
    le_rfl

/-- Steps that read no named key follow links. -/
theorem links_of_orbit {n : ℕ} {b : KeyBlock}
    (h : orbit (loadNext f mode) n (b.enter i) = some st') (hi : st'.i = i) :
    ∃ b', st' = b'.enter i ∧ Relation.ReflTransGen (Links f) b b' := by
  induction n generalizing b with
  | zero =>
    cases h
    exact ⟨b, rfl, .refl⟩
  | succ n ih =>
    obtain ⟨st, hst, hr⟩ := bind_eq_some_iff.mp h
    have hle : i ≤ st.i := le_of_loadNext hst
    have hge : st.i ≤ st'.i := le_of_visits ⟨n, hr⟩
    obtain ⟨b₁, rfl, hln⟩ := links_of_loadNext hst (by omega)
    obtain ⟨b', heq, hl⟩ := ih hr
    exact ⟨b', heq, .head hln hl⟩

theorem orbit_of_links {b b' : KeyBlock} (hi : i < keyCount f)
    (h : Relation.ReflTransGen (Links f) b b') :
    ∃ n, orbit (loadNext f mode) n (b.enter i) = some (b'.enter i) := by
  induction h with
  | refl => exact ⟨0, rfl⟩
  | tail _ hl ih => exact Visits.tail ih (loadNext_of_links hi hl)

/-- A visited state that comes back to itself is followed by a block that links to itself. -/
theorem cycle_of_orbit {period : ℕ} (h : orbit (loadNext f mode) (period + 1) st = some st) :
    ∃ b : KeyBlock, loadNext f mode st = some (b.enter st.i) ∧ st.i < keyCount f ∧
      Relation.TransGen (Links f) b b := by
  obtain ⟨st₁, hst₁, hr⟩ := bind_eq_some_iff.mp h
  have hle : st₁.i ≤ st.i := le_of_visits ⟨period, hr⟩
  obtain ⟨hi, _, ⟨_, rfl⟩ | ⟨_, b, rfl, _⟩⟩ := loadNext_cases hst₁
  · exact absurd hle (Nat.not_succ_le_self _)
  · refine ⟨b, hst₁, hi, ?_⟩
    -- the rest of the cycle is followed by its first step
    obtain ⟨b', heq, hl⟩ := links_of_orbit hr rfl
    rw [heq] at hst₁
    obtain ⟨b'', hb, hln⟩ := links_of_loadNext hst₁ rfl
    have hs : b = b'' := by
      cases b
      cases b''
      cases hb
      rfl
    rw [hs] at hl ⊢
    exact .tail' hl hln

/-- The states that the loop can visit. -/
structure Bounded (f : File) (st : LoadState) : Prop where
  keyBlock : st.keyBlock ≤ f.size + initialKeyStore
  keySize : st.keySize < 2 ^ 32
  pos : st.pos ≤ st.keySize
  i : st.i ≤ (keyCount f).toNat

theorem bounded_start (f : File) : Bounded f .start where
  keyBlock := Nat.le_add_left _ _
  keySize := by decide
  pos := Nat.zero_le _
  i := Nat.zero_le _

theorem Bounded.next (h : Bounded f st) (hn : loadNext f mode st = some st') : Bounded f st' := by
  obtain ⟨hi, he, ⟨_, rfl⟩ | ⟨_, b, rfl, _, hs, _, hle, _⟩⟩ := loadNext_cases hn
  · exact { h with
      pos := he
      i := by
        change st.i + 1 ≤ _
        omega }
  · exact
      { keyBlock := hle.trans (Nat.le_add_right _ _)
        keySize := by
          change b.size < 2 ^ 32
          rw [hs]
          exact read32_lt _ _
        pos := Nat.zero_le _
        i := h.i }

theorem finite_visits (f : File) (mode : Mode) :
    {st | Visits (loadNext f mode) .start st}.Finite := by
  let make (t : ℕ × ℕ × ℕ × ℕ) : LoadState := ⟨t.1, t.2.1, t.2.2.1, t.2.2.2⟩
  have hf : (make '' (Set.Iic (f.size + initialKeyStore) ×ˢ Set.Iio (2 ^ 32) ×ˢ
      Set.Iio (2 ^ 32) ×ˢ Set.Iic (keyCount f).toNat)).Finite :=
    (((Set.finite_Iic _).prod ((Set.finite_Iio _).prod
      ((Set.finite_Iio _).prod (Set.finite_Iic _))))).image make
  refine hf.subset fun st hst => ?_
  have hb : Bounded f st :=
    Visits.invariant (fun _ _ h hn => Bounded.next h hn) hst (bounded_start f)
  have hp : st.pos < 2 ^ 32 := hb.pos.trans_lt hb.keySize
  refine ⟨(st.keyBlock, st.keySize, st.pos, st.i), ?_, rfl⟩
  exact ⟨hb.keyBlock, hb.keySize, hp, hb.i⟩

theorem loadV4_isSome_iff {grows : ℕ → Bool × Bool} {fuel : ℕ} {s : PersistState}
    (hs : ¬f.size > 2 ^ 31 - 1) :
    (loadV4 f mode grows fuel s).isSome ↔ orbit (loadNext f mode) fuel .start = none := by
  rw [loadV4, if_neg hs, isSome_map, loop_isSome_iff]

/-- The load of a file ends if and only if no key block that it comes to leads back to itself
through blocks without a named key. -/
theorem load_terminates_iff (f : File) (mode : Mode) (grows : ℕ → Bool × Bool) (s : PersistState) :
    (∃ fuel, (loadV4 f mode grows fuel s).isSome) ↔ (f.size ≤ 2 ^ 31 - 1 → ∀ (b : KeyBlock) (i : ℕ),
        Visits (loadNext f mode) .start (b.enter i) → i < keyCount f →
          ¬Relation.TransGen (Links f) b b) := by
  by_cases hs : f.size > 2 ^ 31 - 1
  · refine iff_of_true ⟨0, ?_⟩ fun hle => absurd hle (not_le.mpr hs)
    rw [loadV4, if_pos hs]
    rfl
  have hh : (∃ fuel, (loadV4 f mode grows fuel s).isSome) ↔
      Halts (loadNext f mode) .start := exists_congr fun _ => loadV4_isSome_iff hs
  rw [hh, halts_iff_acyclic (finite_visits f mode)]
  constructor
  · intro ha _ b i hv hi hc
    obtain ⟨b', hln, hl⟩ := Relation.TransGen.head'_iff.mp hc
    obtain ⟨n, hn⟩ := orbit_of_links hi hl
    apply ha _ hv n
    rw [orbit, loadNext_of_links hi hln]
    exact hn
  · intro ha st hv period hc
    obtain ⟨b, hnx, hi, hl⟩ := cycle_of_orbit hc
    exact ha (not_lt.mp hs) b st.i (hv.tail hnx) hi hl

/-- One key, and the initial key store chains to itself. -/
def selfChained : File where
  bytes := ((Image.zero.write keyCountOfs (be32 1)).write 56 (be32 4032)).write 68 (be32 64)
  size := 4096

theorem selfChained_never_loads : selfChained.size = 4096 ∧
    ∀ mode grows fuel s, loadV4 selfChained mode grows fuel s = none := by
  refine ⟨rfl, fun mode grows fuel s => ?_⟩
  have hc : orbit (loadNext selfChained mode) 1 .start = some .start := by
    rfl
  by_contra hsome
  apply not_halts_of_cycle .refl hc
  exact ⟨fuel, (loadV4_isSome_iff (by decide)).mp (isSome_iff_ne_none.mpr hsome)⟩

/-! ### Reads -/

/-- What the checks of the load leave open: a key that ends inside of its block also ends inside
of the file, there is a value header in front of the next block, and a value that is copied ends
inside of the file. -/
structure References (f : File) (mode : Mode) (st : LoadState) : Prop where
  length : st.pos + 4 ≤ st.keySize → st.keyBlock + st.pos + 4 ≤ f.size
  name : st.pos + 4 + st.nameLen f ≤ st.keySize →
    st.keyBlock + st.pos + 4 + st.nameLen f ≤ f.size
  ofs : st.keyEnd f ≤ st.keySize → st.keyBlock + st.keyEnd f ≤ f.size
  chain : st.keyEnd f ≤ st.keySize → st.name f = [] → 0 < st.keyOfs f → st.keyOfs f ≤ f.size →
    valueHeaderSize ≤ st.keyOfs f
  value : st.keyEnd f ≤ st.keySize → st.name f ≠ [] → headerSize ≤ st.keyOfs f →
    st.keyOfs f ≤ f.size →
    f.bytes (st.keyOfs f - valueHeaderSize + 4) ≠ 0 ∨ mode ≠ .normal →
    st.keyOfs f + f.bytes.read32 (st.keyOfs f - valueHeaderSize) ≤ f.size

theorem loadEntry_reads_inside_iff {name : Name} {entryOfs : ℕ} {next : LoadState} :
    (∀ e ∈ (loadEntry f mode name entryOfs next).reads, e.Inside f.size) ↔
      (headerSize ≤ entryOfs → entryOfs ≤ f.size →
        f.bytes (entryOfs - valueHeaderSize + 4) ≠ 0 ∨ mode ≠ .normal →
        entryOfs + f.bytes.read32 (entryOfs - valueHeaderSize) ≤ f.size) := by
  unfold loadEntry headerSize valueHeaderSize
  by_cases ho : entryOfs < 4096 ∨ entryOfs > f.size
  · rw [if_pos ho]
    refine iff_of_true (fun e he => absurd he (not_mem_nil)) fun _ _ => ?_
    omega
  · rw [if_neg ho]
    by_cases hu : f.bytes (entryOfs - 8 + 4) ≠ 0 ∨ mode ≠ .normal
    · simp only [Nat.cast_ofNat, reads_bind, reads_get8, value_get8, hu,
        if_true, reads_get32, value_get32, reads_get, cons_append, nil_append, forall_mem_cons,
          Extent.Inside]
      constructor
      · intro h _ _ _
        omega
      · intro h
        have := h (by omega) (by omega) trivial
        refine ⟨by omega, by omega, by omega, by omega, fun e he => absurd he (not_mem_nil)⟩
    · simp only [Nat.cast_ofNat, reads_bind, reads_get8, value_get8, hu,
        if_false, reads_pure, append_nil, forall_mem_singleton, Extent.Inside]
      exact iff_of_true (by omega) fun _ _ h => h.elim

theorem loadChain_reads_inside_iff {chainOfs i : ℕ} :
    (∀ e ∈ (loadChain f chainOfs i).reads, e.Inside f.size) ↔
      (0 < chainOfs → chainOfs ≤ f.size → valueHeaderSize ≤ chainOfs) := by
  unfold loadChain valueHeaderSize
  by_cases ho : chainOfs = 0 ∨ chainOfs > f.size
  · rw [if_pos ho]
    refine iff_of_true (fun e he => absurd he (not_mem_nil)) fun _ _ => ?_
    omega
  · have hr (size : ℕ) : (if (chainOfs + size) % 2 ^ 32 > f.size then pure LoadStep.stop
        else pure (.go ⟨chainOfs, size, 0, i⟩ none) : Logged LoadStep).reads = [] := by
      split_ifs <;> rfl
    simp only [ho, if_false, reads_bind, reads_get32, hr, append_nil,
      forall_mem_singleton, Extent.Inside]
    omega

theorem follow_reads_inside_iff : (∀ e ∈ (st.follow f mode).reads, e.Inside f.size) ↔
    (st.name f = [] → 0 < st.keyOfs f → st.keyOfs f ≤ f.size → valueHeaderSize ≤ st.keyOfs f) ∧
    (st.name f ≠ [] → headerSize ≤ st.keyOfs f → st.keyOfs f ≤ f.size →
      f.bytes (st.keyOfs f - valueHeaderSize + 4) ≠ 0 ∨ mode ≠ .normal →
      st.keyOfs f + f.bytes.read32 (st.keyOfs f - valueHeaderSize) ≤ f.size) := by
  unfold follow
  by_cases hn : st.name f = []
  · rw [if_neg (not_not.mpr hn), loadChain_reads_inside_iff]
    exact ⟨fun h => ⟨fun _ => h, fun hne => absurd hn hne⟩, fun h => h.1 hn⟩
  · rw [if_pos hn, loadEntry_reads_inside_iff]
    exact ⟨fun h => ⟨fun heq => absurd heq hn, fun _ => h⟩, fun h => h.2 hn⟩

theorem loadStep_reads_inside_iff : (∀ e ∈ (loadStep f mode st).reads, e.Inside f.size) ↔
      (st.i < keyCount f → References f mode st) := by
  by_cases hi : st.i < keyCount f
  · rw [loadStep_of_lt hi]
    have hen : st.keyEnd f = st.pos + 4 + st.nameLen f + 4 := rfl
    split_ifs with hl hn ho
    · refine iff_of_true (fun e he => absurd he (not_mem_nil)) fun _ => ?_
      constructor <;> intros <;> omega
    · simp only [forall_mem_singleton, lengthRead, Extent.Inside]
      refine ⟨fun h _ => ?_, fun h => ?_⟩
      · constructor <;> intros <;> omega
      · have := (h hi).length (by omega)
        omega
    · simp only [forall_mem_cons, lengthRead, nameRead, Extent.Inside]
      refine ⟨fun h _ => ?_, fun h => ?_⟩
      · constructor <;> intros <;> omega
      · have := (h hi).name (by omega)
        exact ⟨by omega, by omega, fun e he => absurd he (not_mem_nil)⟩
    · rw [forall_mem_append, follow_reads_inside_iff]
      simp only [forall_mem_cons, lengthRead, nameRead, ofsRead, Extent.Inside]
      refine ⟨fun h _ => ?_, fun h => ?_⟩
      · exact
          { length := fun _ => by omega
            name := fun _ => by omega
            ofs := fun _ => by omega
            chain := fun _ => h.2.1
            value := fun _ => h.2.2 }
      · have hr := h hi
        have := hr.ofs (by omega)
        exact ⟨⟨by omega, by omega, by omega, fun e he => absurd he (not_mem_nil)⟩,
          hr.chain (by omega), hr.value (by omega)⟩
  · rw [loadStep_of_not_lt hi]
    exact iff_of_true (fun e he => absurd he (not_mem_nil)) fun h => absurd h hi

/-- The load reads only inside of a file if and only if every reference that it follows passes
the checks it does not make. -/
theorem load_reads_inside_iff (f : File) (mode : Mode) (hsize : headerSize ≤ f.size) :
    (∀ fuel, ∀ e ∈ loadV4Reads f mode fuel, e.Inside f.size) ↔
      (f.size ≤ 2 ^ 31 - 1 → ∀ st, Visits (loadNext f mode) .start st → st.i < keyCount f →
        References f mode st) := by
  by_cases hl : f.size > 2 ^ 31 - 1
  · refine iff_of_true (fun fuel e he => ?_) fun hle => absurd hle (not_le.mpr hl)
    rw [loadV4Reads, if_pos hl] at he
    exact absurd he not_mem_nil
  have hh : Extent.Inside f.size (keyCountOfs, 4) := by
    unfold headerSize at hsize
    simp only [Extent.Inside, keyCountOfs]
    omega
  simp only [loadV4Reads, hl, if_false, forall_mem_cons, hh, true_and]
  constructor
  · intro h _ st hv
    refine loadStep_reads_inside_iff.mp fun e he => ?_
    have hr : ∃ fuel, e ∈ outputs (loadNext f mode) (fun st => (loadStep f mode st).reads) fuel
        .start := mem_outputs.mpr ⟨st, hv, he⟩
    obtain ⟨fuel, hm⟩ := hr
    exact h fuel e hm
  · intro h fuel e he
    obtain ⟨st, hv, hm⟩ := mem_outputs.mp ⟨fuel, he⟩
    have hrf := h (not_lt.mp hl) st hv
    exact loadStep_reads_inside_iff.mpr hrf e hm

/-- One key whose name is `a`, and a value of 8 bytes that is in use. -/
def sound : File where
  bytes := (((Image.zero.write keyCountOfs (be32 1)).write 64
    (be32 1 ++ [0x61] ++ be32 4104)).write 4096 (be32 8)).write 4100 [1]
  size := 4112

theorem load_reads_inside_sound : headerSize ≤ sound.size ∧
    ∀ fuel, ∀ e ∈ loadV4Reads sound .normal fuel, e.Inside sound.size := by
  have hsz : headerSize ≤ sound.size := by decide
  refine ⟨hsz, (load_reads_inside_iff sound .normal hsz).mpr fun _ st hv hi => ?_⟩
  have hs : st = .start ∨ st = ⟨64, 4032, 9, 1⟩ := by
    apply hv.invariant _ (.inl rfl)
    rintro _ st' (rfl | rfl) hn
    · have hf : loadNext sound .normal .start = some ⟨64, 4032, 9, 1⟩ := by decide +kernel
      exact .inr (Option.some.inj (hn.symm.trans hf))
    · have he : loadNext sound .normal ⟨64, 4032, 9, 1⟩ = none := by decide +kernel
      cases hn.symm.trans he
  rcases hs with rfl | rfl
  · constructor <;> decide +kernel
  · exact absurd hi (by decide)

/-- Three files of 4096 bytes: a value of 100 bytes at the end of the file, a key block in front
of which there is no header, and a key block at the end of the file whose size overflows the sum
with its offset. -/
theorem load_reads_outside :
    ∃ value chain wrapped : File, value.size = 4096 ∧ chain.size = 4096 ∧ wrapped.size = 4096 ∧
      (4096, 100) ∈ loadV4Reads value .normal 1 ∧ (-7, 4) ∈ loadV4Reads chain .normal 1 ∧
      (4094, 4) ∈ loadV4Reads wrapped .normal 2 := by
  refine ⟨⟨(((zero.write keyCountOfs (be32 1)).write 64
      (be32 1 ++ [0x61] ++ be32 4096)).write 4088 (be32 100)).write 4092 [1], 4096⟩,
    ⟨(zero.write keyCountOfs (be32 1)).write 64 (be32 0 ++ be32 1), 4096⟩,
    ⟨((zero.write keyCountOfs (be32 1)).write 64 (be32 0 ++ be32 4094)).write 4086
      (be32 (2 ^ 32 - 4094)), 4096⟩, rfl, rfl, rfl, ?_, ?_, ?_⟩
  · decide +kernel
  · decide +kernel
  · decide +kernel

end SyslogNg.Persist
