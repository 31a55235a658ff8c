import SyslogNg.Foundations.PrefixMap
import SyslogNg.PatternDb.Radix

/-!
# Literal patterns

The tree of patterns without parsers is a prefix tree. The binary search for a child sees the byte
it looks for as a `char`, so that a child whose key begins with a byte above `0x7f` is never found:
neither by a lookup, nor by an insertion, which then makes a second child with this byte. What the
tree holds is therefore said only of the children that can be found.
-/
namespace SyslogNg.PatternDb.RNode

open PrefixMap List Option

variable {V : Type*}

/-- The bytes that are the same as a `char` and as a `guint8` -/
def SevenBit (b : UInt8) : Prop := b.toNat < 0x80

/-! ### Searching a child -/

theorem signedChar_of_sevenBit {b : UInt8} (h : SevenBit b) : signedChar b = b.toNat := by
  unfold SevenBit at h
  exact Int.bmod_eq_of_le_mul_two (by omega) (by omega)

theorem signedChar_neg {b : UInt8} (h : ¬ SevenBit b) : signedChar b < 0 := by
  unfold SevenBit at h
  have hb := b.toNat_lt
  have hs : signedChar b = (b.toNat : ℤ) - 256 := by
    unfold signedChar
    rw [← Int.sub_bmod_right]
    exact Int.bmod_eq_of_le_mul_two (by omega) (by omega)
  omega

variable {children : List (RNode V)} {b : UInt8}

theorem findChild_some {i : ℕ} (h : findChildByFirstCharacter children b = some i) :
    SevenBit b ∧ ∃ c, children[i]? = some c ∧ c.firstByte = b := by
  obtain ⟨hi, hk⟩ := BinarySearch.find_bounded h
  have hs : SevenBit b := by
    by_contra hneg
    have := signedChar_neg hneg
    omega
  refine ⟨hs, children[i], List.getElem?_eq_getElem hi, ?_⟩
  rw [signedChar_of_sevenBit hs, List.getElem?_eq_getElem hi, map_some] at hk
  exact UInt8.toNat_inj.mp (by exact_mod_cast hk)

theorem findChild_none (hs : (children.map firstByte).Pairwise (· ≤ ·)) (hb : SevenBit b)
    (h : findChildByFirstCharacter children b = none) : ∀ c ∈ children, c.firstByte ≠ b := by
  rintro c hc rfl
  obtain ⟨i, hi, hg⟩ := getElem_of_mem hc
  have hm : BinarySearch.NonDecreasing
      (fun i => (((children[i]?.map firstByte).getD 0).toNat : ℤ)) children.length := by
    intro i j hij hj
    rcases hij.eq_or_lt with rfl | hlt
    · exact le_rfl
    · have hle := pairwise_iff_getElem.mp hs i j (by simp; omega) (by simpa using hj) hlt
      simp only [getElem_map] at hle
      simp only [List.getElem?_eq_getElem hj, List.getElem?_eq_getElem (hlt.trans hj),
        map_some]
      exact_mod_cast hle
  have hk : (((children[i]?.map firstByte).getD 0).toNat : ℤ) = signedChar c.firstByte := by
    rw [List.getElem?_eq_getElem hi, map_some, getD_some, hg, signedChar_of_sevenBit hb]
  have hsm : (findChildByFirstCharacter children c.firstByte).isSome :=
    BinarySearch.find_isSome hm hk le_rfl (Nat.sub_le _ _) (Nat.zero_le i) hi
  rw [h] at hsm
  simp at hsm

/-! ### Comparing the key of a node -/

theorem zip_takeWhile_length {l u : Bytes} :
    ((l.zip u).takeWhile fun p => p.1 == p.2).length = u.length ↔ u <+: l := by
  induction u generalizing l with
  | nil => simp
  | cons a u ih =>
    cases l with
    | nil => simp
    | cons c l =>
      by_cases hca : c = a
      · subst hca
        simp [ih]
      · simp [hca, Ne.symm hca]

variable {t : RNode V} {u k key tail : Bytes}

theorem text_of_key (h : t.key = some u) : t.text = u := by
  unfold text
  rw [h]
  rfl

theorem keylen_of_key (h : t.key = some u) : t.keylen = u.length := by
  unfold keylen
  rw [h]

theorem matchingLiteralPrefix_append (hk : t.key = some u) (k tail : Bytes) :
    t.matchingLiteralPrefix (u ++ k ++ tail) (u ++ k).length = u.length := by
  unfold matchingLiteralPrefix
  rw [keylen_of_key hk, text_of_key hk]
  split_ifs with hz ho
  · omega
  · omega
  · have hb : u.drop 1 <+: (u ++ k ++ tail).drop 1 := by
      rw [append_assoc, drop_append_of_le_length (by omega)]
      exact prefix_append _ _
    have hc := zip_takeWhile_length.mpr hb
    rw [length_drop] at hc
    dsimp only
    rw [length_append]
    omega

theorem length_takeWhile_zip_le (k l : Bytes) :
    ((k.zip l).takeWhile fun p => p.1 == p.2).length ≤ l.length := by
  refine (takeWhile_sublist _).length_le.trans ?_
  rw [length_zip]
  exact min_le_right _ _

/-- A text that begins like the key of a node, but not with all of it. -/
theorem matchingLiteralPrefix_lt (hk : t.key = some (b :: u)) (hne : ¬ u <+: key) (tail : Bytes) :
    t.matchingLiteralPrefix (b :: key ++ tail) (b :: key).length < (b :: u).length := by
  have hu : u ≠ [] := by
    rintro rfl
    exact hne nil_prefix
  have hp := length_pos_of_ne_nil hu
  unfold matchingLiteralPrefix
  rw [keylen_of_key hk, text_of_key hk, length_cons, length_cons,
    if_neg (by push_cast; omega), if_neg (by push_cast; omega)]
  dsimp only
  rw [cons_append, drop_one, tail_cons, drop_one, tail_cons]
  have hc := length_takeWhile_zip_le (key ++ tail) u
  rcases Nat.lt_or_ge key.length u.length with hs | hl
  · omega
  · have hd : (((key ++ tail).zip u).takeWhile fun p => p.1 == p.2).length ≠ u.length := by
      intro heq
      exact hne (prefix_of_prefix_length_le (zip_takeWhile_length.mp heq)
        (prefix_append key tail) hl)
    omega

theorem literalMatch_self (hk : t.key = some u) :
    t.literalMatch (u ++ tail) u.length = .complete := by
  have hn := matchingLiteralPrefix_append hk [] tail
  rw [append_nil] at hn
  unfold literalMatch
  rw [hn, keylen_of_key hk]
  simp

theorem literalMatch_append (hky : t.key = some u) (hk : k ≠ []) :
    t.literalMatch (u ++ k ++ tail) (u ++ k).length = .goOn u.length := by
  have hp := length_pos_of_ne_nil hk
  unfold literalMatch
  rw [matchingLiteralPrefix_append hky, keylen_of_key hky]
  rw [length_append, if_neg (by push_cast; omega), if_pos (by push_cast; omega)]

theorem literalMatch_mismatch (hk : t.key = some (b :: u)) (hne : ¬ u <+: key) :
    t.literalMatch (b :: key ++ tail) (b :: key).length = .mismatch := by
  have hlt := matchingLiteralPrefix_lt hk hne tail
  unfold literalMatch
  rw [keylen_of_key hk]
  rw [if_neg (by omega), if_neg (by omega)]

/-! ### What a tree holds -/

/-- The values of the keys below a node, as far as they can be found. -/
inductive Holds : RNode V → (Bytes → Option V) → Prop
  | intro {t : RNode V} {m : Bytes → Option V}
    (value : t.value = m [])
    (pchildren : t.pchildren = [])
    (sorted : (t.children.map firstByte).Pairwise (· ≤ ·))
    (distinct : (t.children.map firstByte).Pairwise fun a b => SevenBit a → a ≠ b)
    (edge : ∀ c ∈ t.children, SevenBit c.firstByte → c.key = some c.text ∧ Edge (keys m) c.text)
    (child : ∀ c ∈ t.children, SevenBit c.firstByte → Holds c (below m c.text))
    (present : ∀ b s, b :: s ∈ keys m → SevenBit b → ∃ c ∈ t.children, c.firstByte = b) :
    Holds t m

variable {m : Bytes → Option V}

theorem Holds.value_eq (h : Holds t m) : t.value = m [] := by cases h; assumption

theorem Holds.pchildren_eq (h : Holds t m) : t.pchildren = [] := by cases h; assumption

/-! ### Lookup -/

variable {env : ParserEnv} {whole : Bytes} {pos : ℕ} {keylen : ℤ} {state : RFindNodeState}

theorem findByLiteral_some {i : ℕ} {c : RNode V} (ndx : ℕ) (h : children[i]? = some c) :
    findByLiteral env whole children ndx (some i) pos keylen state =
      ((c.findNodeFrom env whole pos keylen state).1.map (NodeRef.below (.child (ndx + i))),
        (c.findNodeFrom env whole pos keylen state).2) := by
  induction children generalizing i ndx with
  | nil => simp at h
  | cons d children ih =>
    cases i with
    | zero =>
      rw [List.getElem?_cons_zero, Option.some.injEq] at h
      rw [h]
      rfl
    | succ i =>
      rw [findByLiteral, ih (ndx + 1) h, Nat.add_right_comm]
      rfl

theorem findByLiteral_none (ndx : ℕ) :
    findByLiteral env whole children ndx none pos keylen state = (none, state) := by
  cases children <;> rfl

theorem resetMatches_allocSlot (state : RFindNodeState) :
    state.allocSlot.resetMatches state.nextSlot = state := by
  obtain ⟨complete, found, matches_⟩ := state
  cases matches_ with
  | none => rfl
  | some matches_ =>
    simp [RFindNodeState.allocSlot, RFindNodeState.resetMatches, RFindNodeState.nextSlot]

/-- The answer of a node without parsers to a text that goes on behind its key. -/
theorem Holds.findNodeFrom_goOn (h : Holds t m) (hky : t.key = some u) (hk : k ≠ [])
    (hw : whole.drop pos = u ++ k ++ tail) :
    t.findNodeFrom env whole pos (u ++ k).length state = match findByLiteral env whole t.children 0
          (findChildByFirstCharacter t.children (charAt whole (pos + u.length))) (pos + u.length)
          k.length state with
      | (some ref, state) => (some ref, state)
      | (none, state) => t.partialMatch state := by
  have hl : (((u ++ k).length : ℕ) : ℤ) - u.length = k.length := by
    rw [length_append]
    omega
  rw [findNodeFrom_eq, hw, literalMatch_append hky hk, h.pchildren_eq]
  dsimp only
  rw [hl]
  generalize findByLiteral env whole t.children _ _ _ _ _ = ret
  obtain ⟨_ | node, state'⟩ := ret
  · simp only [findByParsers, resetMatches_allocSlot]
  · rfl

theorem Holds.findNodeFrom_end (h : Holds t m) (hk : t.key = some u)
    (hw : whole.drop pos = u ++ tail) :
    t.findNodeFrom env whole pos u.length state = ((m []).map fun _ => { node := t }, state) := by
  rw [findNodeFrom_eq, hw, literalMatch_self hk]
  rw [h.value_eq]
  cases m [] <;> rfl

/-- Where a node looks for a text that goes on behind its key: in no child, and then nothing below
the node can be reached along the text, or in the one whose key the text begins with. -/
theorem Holds.byLiteral_cases (env : ParserEnv) (h : Holds t m) (hk : k ≠ [])
    (hw : whole.drop pos = k ++ tail) : (∀ y, y <+: k → Open SevenBit (keys m) y → y = []) ∧
        (∀ state, findByLiteral env whole t.children 0
          (findChildByFirstCharacter t.children (charAt whole pos)) pos k.length state =
            (none, state)) ∨ ∃ c ∈ t.children, ∃ k', k = c.text ++ k' ∧ SevenBit c.firstByte ∧
        ∃ i, ∀ state, findByLiteral env whole t.children 0
          (findChildByFirstCharacter t.children (charAt whole pos)) pos k.length state =
            ((c.findNodeFrom env whole pos k.length state).1.map (NodeRef.below (.child i)),
              (c.findNodeFrom env whole pos k.length state).2) := by
  obtain ⟨b, s, rfl⟩ := exists_cons_of_ne_nil hk
  have hb : charAt whole pos = b := by
    have hg : whole[pos]? = some b := by
      rw [← List.head?_drop, hw]
      rfl
    unfold charAt
    rw [getD_eq_getElem?_getD, hg]
    rfl
  rw [hb]
  cases h with | intro value pchildren sorted distinct edge child present =>
  cases hf : findChildByFirstCharacter t.children b with
  | none =>
    refine .inl ⟨fun y hy ho => ?_, fun state => findByLiteral_none 0⟩
    by_contra hne
    obtain ⟨a, y, rfl⟩ := exists_cons_of_ne_nil hne
    obtain ⟨rfl, -⟩ := cons_prefix_cons.mp hy
    obtain ⟨c, hc, hfr⟩ := present a y ho.1 ho.head
    exact findChild_none sorted ho.head hf c hc hfr
  | some i =>
    obtain ⟨hs, c, hg, rfl⟩ := findChild_some hf
    have hc : c ∈ t.children := mem_of_getElem? hg
    obtain ⟨hck, he⟩ := edge c hc hs
    obtain ⟨a, u, hu⟩ := exists_cons_of_ne_nil he.ne_nil
    have ha : a = c.firstByte := by
      unfold firstByte
      rw [hu]
      rfl
    subst ha
    by_cases hbg : c.text <+: c.firstByte :: s
    · obtain ⟨k', hk'⟩ := hbg
      refine .inr ⟨c, hc, k', hk'.symm, hs, i, fun state => ?_⟩
      rw [findByLiteral_some 0 hg, Nat.zero_add]
    · refine .inl ⟨fun y hy ho => ?_, fun state => ?_⟩
      · by_contra hne
        obtain ⟨a, y, rfl⟩ := exists_cons_of_ne_nil hne
        obtain ⟨rfl, -⟩ := cons_prefix_cons.mp hy
        exact hbg ((he.all _ ho.1 (by rw [hu]; rfl)).trans hy)
      · rw [hu, cons_prefix_cons, not_and] at hbg
        rw [hu] at hck
        rw [findByLiteral_some 0 hg, findNodeFrom_eq, hw, literalMatch_mismatch hck (hbg rfl)]
        rfl

theorem drop_append {whole : Bytes} {pos : ℕ} (h : whole.drop pos = u ++ k ++ tail) :
    whole.drop (pos + u.length) = k ++ tail := by
  rw [← drop_drop, h, append_assoc, drop_left]

theorem head_sevenBit {c : RNode V} (h : SevenBit c.firstByte) :
    ∀ a ∈ c.text.head?, SevenBit a := by
  intro a ha
  unfold firstByte at h
  cases ht : c.text with
  | nil => simp [ht] at ha
  | cons d u =>
    rw [ht, List.head?_cons, mem_some_iff] at ha
    rw [ht] at h
    rw [← ha]
    exact h

/-- The first pass finds the whole text, or it says whether there is a part of it. -/
theorem Holds.complete (env : ParserEnv) (h : Holds t m) :
    ∀ {u k tail : Bytes} {pos : ℕ} (state : RFindNodeState), t.key = some u →
      whole.drop pos = u ++ k ++ tail → state.requireCompleteMatch = true →
      (∃ ref, t.findNodeFrom env whole pos (u ++ k).length state = (some ref, state) ∧
          ref.value = m k ∧ Open SevenBit (keys m) k) ∨
        ∃ flag, t.findNodeFrom env whole pos (u ++ k).length state =
            (none, { state with partialMatchFound := flag }) ∧ ¬ Open SevenBit (keys m) k ∧
          (flag = true ↔ state.partialMatchFound = true ∨
            ∃ y, y <+: k ∧ Open SevenBit (keys m) y) := by
  induction h with
  | @intro t m value pchildren sorted distinct edge child present ih =>
  intro u k tail pos state hky hw hcm
  have h : Holds t m := .intro value pchildren sorted distinct edge child present
  by_cases hk : k = []
  · subst hk
    rw [append_nil] at hw ⊢
    rw [h.findNodeFrom_end hky hw]
    cases hn : m [] with
    | none =>
      have hcl : ¬ Open SevenBit (keys m) [] := fun ho => open_nil.mp ho hn
      refine .inr ⟨state.partialMatchFound, rfl, hcl, ?_⟩
      simp [hcl]
    | some v =>
        exact .inl ⟨{ node := t }, rfl, value.trans hn, open_nil.mpr (by simp [PrefixMap.keys, hn])⟩
  · rw [h.findNodeFrom_goOn hky hk hw]
    rcases h.byLiteral_cases env hk (drop_append hw) with
      ⟨hn, hf⟩ | ⟨c, hc, k', rfl, hs, i, hf⟩
    · rw [hf]
      have hcl : ¬ Open SevenBit (keys m) k := fun ho => hk (hn k prefix_rfl ho)
      have hi : (∃ y, y <+: k ∧ Open SevenBit (keys m) y) ↔ t.value ≠ none := by
        rw [value]
        constructor
        · rintro ⟨y, hy, ho⟩
          rw [hn y hy ho] at ho
          exact ho.1
        · exact fun hsm => ⟨[], nil_prefix, open_nil.mpr hsm⟩
      rw [hi]
      cases hv : t.value with
      | none => exact .inr ⟨state.partialMatchFound, by simp [partialMatch, hv], hcl, by simp⟩
      | some v => exact .inr ⟨true, by simp [partialMatch, hv, hcm], hcl, by simp⟩
    · rw [hf]
      obtain ⟨hck, he⟩ := edge c hc hs
      have hok := head_sevenBit hs
      have hd := drop_append hw
      rw [he.open_append hok, he.exists_open_iff hok]
      rcases ih c hc hs state hck hd hcm with
        ⟨ref, hr, hv, ho⟩ | ⟨flag, hr, hcl, hfl⟩
      · rw [hr]
        exact .inl ⟨ref.below (.child i), rfl, hv, ho⟩
      · rw [hr]
        have hn : [] ∈ keys m ↔ t.value ≠ none := by
          rw [value]
          rfl
        rw [hn]
        cases hv : t.value with
        | none =>
          refine .inr ⟨flag, by simp [partialMatch, hv], hcl, ?_⟩
          rw [hfl]
          simp [keys_below]
        | some v =>
          exact .inr ⟨true, by simp [partialMatch, hv, hcm], hcl, by simp⟩

/-- The second pass finds the longest part. -/
theorem Holds.longest (env : ParserEnv) (h : Holds t m) :
    ∀ {u k tail : Bytes} {pos : ℕ} (state : RFindNodeState), t.key = some u →
      whole.drop pos = u ++ k ++ tail → state.requireCompleteMatch = false →
      ∃ ret, t.findNodeFrom env whole pos (u ++ k).length state = (ret, state) ∧
        IsBest SevenBit m k (ret.bind NodeRef.value) ∧
        (ret.bind NodeRef.value = none → ret = none) := by
  induction h with
  | @intro t m value pchildren sorted distinct edge child present ih =>
  intro u k tail pos state hky hw hp
  have h : Holds t m := .intro value pchildren sorted distinct edge child present
  have hs : ((m []).map fun _ => ({ node := t } : NodeRef V)).bind NodeRef.value = m [] := by
    cases hm : m [] with
    | none => rfl
    | some v => exact value.trans hm
  have hn : (m []).map (fun _ => ({ node := t } : NodeRef V)) = none ↔ m [] = none := by simp
  have hpr : ∀ state : RFindNodeState, state.requireCompleteMatch = false →
      t.partialMatch state = ((m []).map fun _ => { node := t }, state) := by
    intro state hp
    unfold partialMatch
    rw [value, hp]
    cases m [] <;> rfl
  by_cases hk : k = []
  · subst hk
    rw [append_nil] at hw ⊢
    refine ⟨_, h.findNodeFrom_end hky hw, ?_, ?_⟩
    · rw [hs]
      exact isBest_of_nil fun y hy _ => prefix_nil.mp hy
    · rw [hs]
      exact hn.mpr
  · rw [h.findNodeFrom_goOn hky hk hw]
    rcases h.byLiteral_cases env hk (drop_append hw) with
      ⟨hnl, hf⟩ | ⟨c, hc, k', rfl, hsv, i, hf⟩
    · rw [hf]
      refine ⟨_, hpr state hp, ?_, ?_⟩
      · rw [hs]
        exact isBest_of_nil hnl
      · rw [hs]
        exact hn.mpr
    · rw [hf]
      obtain ⟨hck, he⟩ := edge c hc hsv
      have hd := drop_append hw
      obtain ⟨ret, hr, hb, hv⟩ := ih c hc hsv state hck hd hp
      have heb := hb.edge he (head_sevenBit hsv)
      rw [hr]
      cases ret with
      | none =>
        refine ⟨_, hpr state hp, ?_, ?_⟩
        · rw [hs]
          exact heb
        · rw [hs]
          exact hn.mpr
      | some ref =>
        have hsm : ref.value ≠ none := fun hnl => absurd (hv hnl) (by simp)
        refine ⟨some (ref.below (.child i)), rfl, ?_, fun hnl => absurd hnl hsm⟩
        change IsBest SevenBit m (c.text ++ k') ref.value
        change IsBest SevenBit m (c.text ++ k') (ref.value.or (m [])) at heb
        cases hv : ref.value with
        | none => exact absurd hv hsm
        | some v =>
          rw [hv] at heb
          exact heb

/-- What a lookup finds in a tree: the value of the longest key that can be reached. -/
theorem Holds.findNode_isBest (env : ParserEnv) (h : Holds t m) (hk : t.key = some [])
    (k tail : Bytes)
    (storedMatches : Option (List RParserMatch)) : IsBest SevenBit m k
      ((t.findNode env (k ++ tail) k.length storedMatches).1.bind NodeRef.value) := by
  have hw : (k ++ tail).drop 0 = [] ++ k ++ tail := rfl
  unfold findNode
  rcases h.complete env { requireCompleteMatch := true, storedMatches := storedMatches } hk hw
      rfl with
    ⟨ref, hr, hv, ho⟩ | ⟨flag, hr, hc, hf⟩
  · rw [nil_append] at hr
    rw [hr]
    refine .inl ⟨k, prefix_rfl, ho, ?_, fun y hy _ => hy⟩
    simp [hv]
  · rw [nil_append] at hr
    rw [hr]
    cases flag with
    | false =>
      have hn : ¬ ∃ y, y <+: k ∧ Open SevenBit (keys m) y := by
        intro hsm
        exact Bool.false_ne_true (hf.mpr (.inr hsm))
      exact .inr ⟨by simp, fun y hy ho => hn ⟨y, hy, ho⟩⟩
    | true =>
      obtain ⟨ret, hs, hb, -⟩ := h.longest env
        { requireCompleteMatch := false
          partialMatchFound := true
          storedMatches := storedMatches } hk hw rfl
      rw [nil_append] at hs
      simp only [hs]
      exact hb

end SyslogNg.PatternDb.RNode
