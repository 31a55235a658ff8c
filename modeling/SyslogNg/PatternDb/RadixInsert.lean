import SyslogNg.PatternDb.RadixLiteral

/-!
# Insertion of literal patterns

`r_insert_node` adds a key without `@` to what the tree holds: it goes down along the edges that the
key begins with, and then sets a value, hangs in a new child, or splits the last edge. A lookup
returns what it should for a key exactly if no byte above `0x7f` follows a node on the way to it.
-/
namespace SyslogNg.PatternDb.RNode

open PrefixMap List List.Pairwise

variable {V : Type*} {t c : RNode V} {m M : Bytes → Option V} {u k key : Bytes} {v : V} {b : UInt8}

/-! ### The number of calls -/

theorem le_depths {l : List (RNode V)} (h : c ∈ l) : c.depth ≤ depths l := by
  induction l with
  | nil => simp at h
  | cons d l ih =>
    rw [depths]
    rcases mem_cons.mp h with rfl | h
    · exact le_max_left ..
    · exact (ih h).trans (le_max_right ..)

theorem depth_eq (t : RNode V) : t.depth = max (depths t.children) (depths t.pchildren) + 1 := by
  cases t
  rfl

theorem depth_pos (t : RNode V) : 0 < t.depth := by
  rw [depth_eq]
  omega

theorem depth_lt_of_mem (h : c ∈ t.children ∨ c ∈ t.pchildren) : c.depth < t.depth := by
  have hl := h.imp le_depths le_depths
  rw [t.depth_eq]
  omega

theorem depth_newNode (w : Option Bytes) (x : Option V) : (newNode w x).depth = 1 := by
  simp [newNode, depth, depths]

theorem depth_split (t : RNode V) (i : ℕ) : (t.split i).depth = t.depth + 1 := by
  simp [split, addChild, newNode, depth, depths, t.depth_eq]

theorem modify_congr {f g : RNode V → RNode V} {l : List (RNode V)} (i : ℕ)
    (h : ∀ c ∈ l, f c = g c) : l.modify i f = l.modify i g := by
  rw [modify_eq_set_getElem?, modify_eq_set_getElem?]
  cases hc : l[i]? with
  | none => rfl
  | some c =>
    dsimp only [Option.map_eq_map, Option.map_some]
    rw [h c (mem_of_getElem? hc)]

theorem modifyChild_congr {f g : RNode V → RNode V} (i : ℕ) (h : ∀ c ∈ t.children, f c = g c) :
    t.modifyChild i f = t.modifyChild i g :=
  congrArg (fun children => { t with children := children }) (modify_congr i h)

theorem modifyPchild_congr {f g : RNode V → RNode V} (i : ℕ) (h : ∀ c ∈ t.pchildren, f c = g c) :
    t.modifyPchild i f = t.modifyPchild i g :=
  congrArg (fun pchildren => { t with pchildren := pchildren }) (modify_congr i h)

/-- `r_add_child_check` goes on only with what begins with `@`, at the node or at a new one. -/
theorem addChildCheck_congr {f g : RNode V → Bytes → RNode V} {v : V}
    (h : ∀ (c : RNode V) (rest : Bytes), c.depth ≤ t.depth → rest <:+ key →
      rest.head? = some 0x40 → f c rest = g c rest) :
    addChildCheck f v t key = addChildCheck g v t key := by
  unfold addChildCheck
  cases hf : key.findIdx? (· == 0x40) with
  | none => rfl
  | some i =>
    obtain ⟨hlt, hat, -⟩ := findIdx?_eq_some_iff_getElem.mp hf
    have hh : (key.drop i).head? = some 0x40 := by simpa [head?_drop, hlt] using hat
    cases i with
    | zero => exact h t key le_rfl suffix_rfl hh
    | succ i =>
      refine congrArg t.addChild (h _ _ ?_ (drop_suffix _ _) hh)
      rw [depth_newNode]
      exact t.depth_pos

/-- With enough calls, more of them make no difference. -/
theorem insertWithin_succ (env : ParserEnv) (v : V) {f : ℕ} (hf : t.depth + 2 * key.length < f) :
    insertWithin env v (f + 1) t key = insertWithin env v f t key := by
  induction f generalizing t key with
  | zero => omega
  | succ f ih =>
    have hd := t.depth_pos
    have hp (h : key.head? = some 0x40) : 0 < key.length := length_pos_of_mem (mem_of_mem_head? h)
    -- a call with less of the key, at a node that is at most one level above this one
    have hs : ∀ {c : RNode V} {rest : Bytes}, c.depth ≤ t.depth + 1 → rest.length < key.length →
        insertWithin env v (f + 1) c rest = insertWithin env v f c rest := by
      intro c rest hc hr
      exact ih (by omega)
    have hgo : ∀ {c : RNode V} {rest : Bytes}, c.depth ≤ t.depth + 1 → rest.length < key.length →
        (if rest = [] then c.setValueOnce v else insertWithin env v (f + 1) c rest) =
          if rest = [] then c.setValueOnce v else insertWithin env v f c rest := by
      intro c rest hc hr
      rw [hs hc hr]
    conv_lhs => rw [insertWithin]
    conv_rhs => rw [insertWithin]
    split_ifs with hat hes
    · have hr : (key.drop 2).length < key.length := by
        have := hp hat
        rw [length_drop]
        omega
      cases findChildByFirstCharacter t.children 0x40 with
      | none => exact congrArg t.addChild (hgo (by rw [depth_newNode]; omega) hr)
      | some i =>
        refine modifyChild_congr i fun c hc => hgo ?_ hr
        exact (depth_lt_of_mem (.inl hc)).le.trans (Nat.le_succ _)
    · cases key.tail.findIdx? (· == 0x40) with
      | none => rfl
      | some stop =>
        dsimp only
        cases newPnode env (key.tail.take stop) with
        | none => rfl
        | some parser =>
          have hr : (key.tail.drop (stop + 1)).length < key.length := by
            have := hp hat
            rw [length_drop, length_tail]
            omega
          dsimp only
          cases t.findPchild parser with
          | none =>
            refine congrArg t.addPchild (hgo ?_ hr)
            rw [depth, newNode, depths]
            omega
          | some i =>
            refine modifyPchild_congr i fun c hc => hgo ?_ hr
            exact (depth_lt_of_mem (.inr hc)).le.trans (Nat.le_succ _)
    · dsimp only
      generalize hrs : key.drop (commonLen key t.text) = rest
      have hsf : rest <:+ key := hrs ▸ drop_suffix _ _
      -- what begins with `@` is only a part of the key
      have har : ∀ {part : Bytes}, part <:+ rest → part.head? = some 0x40 →
          part.length < key.length := by
        intro part hp hh
        have hk := hp.trans hsf
        refine lt_of_le_of_ne hk.length_le fun heq => ?_
        rw [hk.eq_of_length heq] at hh
        exact hat hh
      have hc : ∀ {c : RNode V}, c.depth ≤ t.depth + 1 →
          addChildCheck (insertWithin env v (f + 1)) v c rest =
            addChildCheck (insertWithin env v f) v c rest := by
        intro c hc
        exact addChildCheck_congr fun d part hd hp hh => hs (hd.trans hc) (har hp hh)
      split_ifs with hdw hn
      · cases findChildByFirstCharacter t.children (charAt rest 0) with
        | none => exact hc (Nat.le_succ _)
        | some j => exact hs (Nat.le_succ _) (har suffix_rfl hn)
      · cases findChildByFirstCharacter t.children (charAt rest 0) with
        | none => exact hc (Nat.le_succ _)
        | some j =>
          refine modifyChild_congr j fun c hc => ih ?_
          have hl := hsf.length_le
          have hdc := depth_lt_of_mem (.inl hc)
          omega
      · rfl
      · exact hc (depth_split t _).le
      · rfl
      · exact hc (Nat.le_succ _)

/-- `insertNode` lets `r_insert_node` make all the calls that it makes. -/
theorem insertNode_eq (env : ParserEnv) {fuel : ℕ} (t : RNode V) (v : V)
    (hf : t.depth + 2 * key.length < fuel) :
    insertNode env t key v = insertWithin env v fuel t key := by
  induction fuel, hf using Nat.le_induction with
  | base => rfl
  | succ fuel hf ih => rw [ih, insertWithin_succ env v hf]

/-! ### What the cases of an insertion do to a node -/

/-- What a node holds does not depend on its own key. -/
theorem Holds.of_same {t' : RNode V} (h : Holds t m) (hv : t'.value = t.value)
    (hc : t'.children = t.children) (hp : t'.pchildren = t.pchildren) : Holds t' m := by
  cases h with | intro value pchildren sorted distinct edge child present =>
  rw [← hc] at sorted distinct edge child present
  exact .intro (hv.trans value) (hp.trans pchildren) sorted distinct edge child present

theorem holds_leaf (hn : m [] = some v) (hcn : ∀ b s, m (b :: s) = none) :
    Holds (newNode (some u) (some v)) m := by
  refine .intro hn.symm rfl nil nil ?_ ?_ ?_
  · intro c hc
    simp [newNode] at hc
  · intro c hc
    simp [newNode] at hc
  · intro b s hs
    exact absurd (hcn b s) hs

/-- A child that can be found, with the edge to it. -/
structure IsChild (m : Bytes → Option V) (c : RNode V) : Prop where
  key_eq : c.key = some c.text
  edge : Edge (keys m) c.text
  holds : Holds c (below m c.text)

theorem IsChild.of_key {w : Bytes} (hk : c.key = some w) (he : Edge (keys m) w)
    (hh : Holds c (below m w)) : IsChild m c := by
  obtain rfl := text_of_key hk
  exact ⟨hk, he, hh⟩

theorem head?_text (h : c.text ≠ []) : c.text.head? = some c.firstByte := by
  unfold firstByte
  obtain ⟨b, u, hu⟩ := exists_cons_of_ne_nil h
  rw [hu]
  rfl

theorem IsChild.put_other (h : IsChild m c) (hk : k.head? ≠ some c.firstByte) :
    IsChild (put m k v) c := by
  rw [← head?_text h.edge.ne_nil] at hk
  refine ⟨h.key_eq, ?_, ?_⟩
  · rw [keys_put]
    exact h.edge.insert_other hk
  · rw [below_put_of_not_below]
    · exact h.holds
    · rintro ⟨s, rfl⟩
      exact hk (List.head?_append_of_ne_nil _ h.edge.ne_nil)

theorem Holds.isChild (h : Holds t m) (hc : c ∈ t.children) (hs : SevenBit c.firstByte) :
    IsChild m c := by
  cases h with | intro value pchildren sorted distinct edge child present =>
  exact ⟨(edge c hc hs).1, (edge c hc hs).2, child c hc hs⟩

theorem Holds.intro' (value : t.value = m []) (pchildren : t.pchildren = [])
    (sorted : (t.children.map firstByte).Pairwise (· ≤ ·))
    (distinct : (t.children.map firstByte).Pairwise fun a b => SevenBit a → a ≠ b)
    (child : ∀ c ∈ t.children, SevenBit c.firstByte → IsChild m c)
    (present : ∀ b s, b :: s ∈ keys m → SevenBit b → ∃ c ∈ t.children, c.firstByte = b) :
    Holds t m :=
  .intro value pchildren sorted distinct
    (fun c hc hs => ⟨(child c hc hs).key_eq, (child c hc hs).edge⟩)
    (fun c hc hs => (child c hc hs).holds) present

theorem Holds.setValueOnce (h : Holds t m) : Holds (t.setValueOnce v) (put m [] v) := by
  have hch := fun c hc hsv => h.isChild (c := c) hc hsv
  cases h with | intro value pchildren sorted distinct edge child present =>
  refine .intro' ?_ pchildren sorted distinct (fun c hc hsv => ?_) ?_
  · change t.value.or (some v) = put m [] v []
    rw [value, put, if_pos rfl]
  · exact (hch c hc hsv).put_other (by simp)
  · intro b s hs hsv
    refine present b s ?_ hsv
    rw [keys_put] at hs
    exact hs.resolve_left (by simp)

theorem firstByte_sort_pairwise (l : List (RNode V)) :
    ((l.insertionSort fun a b => a.firstByte ≤ b.firstByte).map firstByte).Pairwise (· ≤ ·) := by
  rw [pairwise_map]
  exact pairwise_insertionSort _ l

theorem Holds.addLeaf (h : Holds t m) (hnw : SevenBit b → ∀ c ∈ t.children, c.firstByte ≠ b)
    (s : Bytes) : Holds (t.addChild (newNode (some (b :: s)) (some v))) (put m (b :: s) v) := by
  have hch := fun c hc hs => h.isChild (c := c) hc hs
  cases h with | intro value pchildren sorted distinct edge child present =>
  have hp := perm_insertionSort (fun a b : RNode V => a.firstByte ≤ b.firstByte)
    (t.children ++ [newNode (some (b :: s)) (some v)])
  have hm : ∀ c, c ∈ (t.addChild (newNode (some (b :: s)) (some v))).children ↔
      c ∈ t.children ∨ c = newNode (some (b :: s)) (some v) := by
    intro c
    rw [← mem_singleton, ← mem_append]
    exact hp.mem_iff
  have hfr : (newNode (some (b :: s)) (some v)).firstByte = b := rfl
  have hf : SevenBit b → ∀ y ∈ keys m, y.head? ≠ some b := by
    intro hs y hy hh
    obtain ⟨s, rfl⟩ := List.head?_eq_some_iff.mp hh
    obtain ⟨c, hc, hcb⟩ := present b s hy hs
    exact hnw hs c hc hcb
  refine .intro' ?_ pchildren (firstByte_sort_pairwise _) ?_ (fun c hc hs => ?_) ?_
  · change t.value = put m (b :: s) v []
    rw [value, put_of_ne (by simp)]
  · have hsy : ∀ {x y : UInt8}, (SevenBit x → x ≠ y) → SevenBit y → y ≠ x := by
      rintro x y hxy hy rfl
      exact hxy hy rfl
    refine ((hp.map firstByte).pairwise_iff hsy).mpr ?_
    rw [map_append, pairwise_append]
    refine ⟨distinct, by simp, ?_⟩
    intro x hx y hy hs
    obtain ⟨c, hc, rfl⟩ := List.mem_map.mp hx
    rw [map_singleton, mem_singleton, hfr] at hy
    rw [hy]
    rintro heq
    exact hnw (heq ▸ hs) c hc heq
  · rcases (hm c).mp hc with ho | rfl
    · apply (hch c ho hs).put_other
      rw [List.head?_cons, Ne, Option.some.injEq]
      intro heq
      exact hnw (heq ▸ hs) c ho heq.symm
    · refine ⟨rfl, ?_, holds_leaf ?_ ?_⟩
      · rw [keys_put]
        exact Edge.of_new (by simp) (hf hs)
      · have hn : m (b :: s) = none := by
          by_contra hsome
          exact hf hs _ hsome rfl
        change put m (b :: s) v (b :: s ++ []) = some v
        rw [append_nil, put_of_none hn]
      · intro a z
        change put m (b :: s) v (b :: s ++ a :: z) = none
        rw [put_of_ne (by simp)]
        by_contra hsome
        exact hf hs _ hsome rfl
  · intro a z hz hs
    rw [keys_put] at hz
    rcases hz with hz | hz
    · rw [List.cons.injEq] at hz
      exact ⟨_, (hm _).mpr (.inr rfl), hz.1.symm⟩
    · obtain ⟨c, hc, hca⟩ := present a z hz hs
      exact ⟨c, (hm c).mpr (.inl hc), hca⟩

theorem Holds.modifyChild {j : ℕ} {f : RNode V → RNode V} (h : Holds t m)
    (hg : t.children[j]? = some c) (hs : SevenBit c.firstByte)
    (hk : k.head? = some c.firstByte) (hf : (f c).firstByte = c.firstByte)
    (hch : IsChild (put m k v) (f c)) : Holds (t.modifyChild j f) (put m k v) := by
  have hcd := fun c hc hs => h.isChild (c := c) hc hs
  cases h with | intro value pchildren sorted distinct edge child present =>
  have hm : (t.modifyChild j f).children.map firstByte = t.children.map firstByte := by
    apply ext_getElem?
    intro i
    change ((t.children.modify j f).map firstByte)[i]? = _
    by_cases hij : j = i
    · subst hij
      simp [hg, hf]
    · simp [hij]
  refine .intro' ?_ pchildren (hm ▸ sorted) (hm ▸ distinct) (fun d hd hds => ?_) ?_
  · change t.value = put m k v []
    rw [value, put_of_ne]
    rintro rfl
    simp at hk
  · obtain ⟨i, hi⟩ := List.getElem?_of_mem hd
    change (t.children.modify j f)[i]? = some d at hi
    rw [List.getElem?_modify] at hi
    by_cases hij : j = i
    · subst hij
      rw [hg] at hi
      simp only [Option.map_eq_map, Option.map_some, Option.some.injEq] at hi
      exact hi ▸ hch
    · -- another child has another first byte
      simp only [hij, if_false, Option.map_eq_map, Option.map_id_fun'] at hi
      apply (hcd d (mem_of_getElem? hi) hds).put_other
      rw [hk, Ne, Option.some.injEq]
      intro heq
      have hne := pairwise_iff_getElem.mp distinct
      obtain ⟨hj, hcj⟩ := List.getElem?_eq_some_iff.mp hg
      obtain ⟨hil, hdi⟩ := List.getElem?_eq_some_iff.mp hi
      rcases Nat.lt_or_gt_of_ne hij with hlt | hlt
      · have := hne j i (by simpa using hj) (by simpa using hil) hlt
        simp only [getElem_map, hcj, hdi] at this
        exact this hs heq
      · have := hne i j (by simpa using hil) (by simpa using hj) hlt
        simp only [getElem_map, hcj, hdi] at this
        exact this hds heq.symm
  · intro a z hz ha
    have hal : ∃ c ∈ t.children, c.firstByte = a := by
      rw [keys_put] at hz
      rcases hz with hz | hz
      · rw [← hz, List.head?_cons, Option.some.injEq] at hk
        exact ⟨c, mem_of_getElem? hg, hk.symm⟩
      · exact present a z hz ha
    rw [← List.mem_map] at hal ⊢
    rw [hm]
    exact hal

theorem Holds.split {p q : Bytes} (h : Holds t (PrefixMap.below M u)) (hk : t.key = some u)
    (he : Edge (keys M) u) (hu : u = p ++ q) (hp : p ≠ []) (hq : q ≠ []) :
    Holds (t.split p.length) (PrefixMap.below M p) ∧ (t.split p.length).key = some p ∧
      (t.split p.length).children.map firstByte = [charAt q 0] := by
  subst hu
  have htk : (p ++ q).take p.length = p := take_left' rfl
  have hd : (p ++ q).drop p.length = q := drop_left' rfl
  obtain ⟨old, ho, hv, hch, hpc, hsp⟩ : ∃ old : RNode V,
      old.key = some q ∧ old.value = t.value ∧ old.children = t.children ∧
        old.pchildren = t.pchildren ∧ t.split p.length =
          { t with key := some p, value := none, children := [old], pchildren := [] } := by
    refine ⟨{ newNode (some q) t.value with children := t.children, pchildren := t.pchildren },
      rfl, rfl, rfl, rfl, ?_⟩
    unfold RNode.split
    rw [text_of_key hk, htk, hd]
    rfl
  have ht : old.text = q := text_of_key ho
  have hf : old.firstByte = charAt q 0 := by
    unfold firstByte
    rw [ht]
  have hr := he.rest rfl hp hq
  rw [hsp]
  refine ⟨.intro' ?_ rfl (by simp) (by simp) (fun c hc hsv => ?_) ?_, rfl, by simp [hf]⟩
  · by_contra hsome
    have hm : p ++ [] ∈ keys M := fun hn => hsome hn.symm
    have hl := (he.prefix_of_mem hp (prefix_append p q) hm).length_le
    rw [append_nil, length_append] at hl
    have := length_pos_of_ne_nil hq
    omega
  · rw [mem_singleton] at hc
    subst hc
    refine ⟨by rw [ht, ho], by rw [ht]; exact hr, ?_⟩
    rw [ht, below_append]
    exact h.of_same hv hch hpc
  · intro b s hs hsv
    have hb : p ++ q <+: p ++ b :: s := he.prefix_of_mem hp (prefix_append p q) hs
    rw [prefix_append_right_inj] at hb
    refine ⟨old, mem_singleton_self old, ?_⟩
    obtain ⟨a, q, rfl⟩ := exists_cons_of_ne_nil hq
    rw [hf]
    exact (cons_prefix_cons.mp hb).1

/-! ### The cases of an insertion -/

theorem commonLen_spec (hat : 0x40 ∉ key) (u : Bytes) :
    ∃ p k q, key = p ++ k ∧ u = p ++ q ∧ commonLen key u = p.length ∧
      (k = [] ∨ q = [] ∨ k.head? ≠ q.head?) := by
  induction key generalizing u with
  | nil => exact ⟨[], [], u, rfl, rfl, by cases u <;> rfl, .inl rfl⟩
  | cons a key ih =>
    cases u with
    | nil => exact ⟨[], a :: key, [], rfl, rfl, rfl, .inr (.inl rfl)⟩
    | cons c u =>
      rw [mem_cons, not_or] at hat
      by_cases hac : a = c
      · subst hac
        obtain ⟨p, k, q, hk, hu, hln, hl⟩ := ih hat.2 u
        refine ⟨a :: p, k, q, by rw [hk]; rfl, by rw [hu]; rfl, ?_, hl⟩
        rw [commonLen, if_neg (by simpa using Ne.symm hat.1), hln]
        rfl
      · refine ⟨[], a :: key, c :: u, rfl, rfl, ?_, .inr (.inr (by simpa using hac))⟩
        rw [commonLen, if_pos (.inl hac)]
        rfl

theorem addChildCheck_literal {insert : RNode V → Bytes → RNode V} (hat : 0x40 ∉ key) :
    addChildCheck insert v t key = t.addChild (newNode (some key) (some v)) := by
  have hn : key.findIdx? (· == 0x40) = none := by
    rw [List.findIdx?_eq_none_iff]
    intro b hb
    simp only [beq_eq_false_iff_ne]
    rintro rfl
    exact hat hb
  unfold addChildCheck
  rw [hn]

variable {env : ParserEnv} {fuel : ℕ} {p q : Bytes}

theorem head?_ne_at (hat : 0x40 ∉ key) : key.head? ≠ some 0x40 :=
  fun h => hat (List.mem_of_mem_head? h)

theorem insertWithin_append (hk : t.key = some u) (hat : 0x40 ∉ u ++ b :: k)
    (hl : commonLen (u ++ b :: k) u = u.length) : insertWithin env v (fuel + 1) t (u ++ b :: k) =
      match findChildByFirstCharacter t.children b with
      | some j => t.modifyChild j fun node => insertWithin env v fuel node (b :: k)
      | none => t.addChild (newNode (some (b :: k)) (some v)) := by
  have hr : 0x40 ∉ b :: k := fun h => hat (mem_append_right u h)
  have hc : t.keylen = 0 ∨ u.length = 0 ∨
      (u.length < (u ++ b :: k).length ∧ ((u.length : ℕ) : ℤ) ≥ t.keylen) := by
    refine .inr (.inr ⟨by simp, ?_⟩)
    rw [keylen_of_key hk]
  rw [insertWithin, if_neg (head?_ne_at hat), text_of_key hk, hl]
  rw [if_pos hc, drop_left' rfl]
  change (match findChildByFirstCharacter t.children b with
    | some j => _
    | none => _) = _
  cases findChildByFirstCharacter t.children b with
  | none => exact addChildCheck_literal hr
  | some j =>
    dsimp only
    rw [if_neg (head?_ne_at hr)]

theorem insertWithin_self (hk : t.key = some u) (hu : u ≠ []) (hat : 0x40 ∉ u)
    (hl : commonLen u u = u.length) : insertWithin env v (fuel + 1) t u = t.setValueOnce v := by
  have hp := length_pos_of_ne_nil hu
  rw [insertWithin, if_neg (head?_ne_at hat), text_of_key hk, hl]
  rw [keylen_of_key hk, if_neg (by omega), if_pos ⟨rfl, rfl⟩]

theorem insertWithin_leaving (hky : t.key = some (p ++ q)) (hp : p ≠ []) (hq : q ≠ [])
    (hat : 0x40 ∉ p ++ k) (hl : commonLen (p ++ k) (p ++ q) = p.length) :
    insertWithin env v (fuel + 1) t (p ++ k) =
      if k = [] then { t.split p.length with value := some v }
      else (t.split p.length).addChild (newNode (some k) (some v)) := by
  have hpp := length_pos_of_ne_nil hp
  have hqp := length_pos_of_ne_nil hq
  rw [insertWithin, if_neg (head?_ne_at hat), text_of_key hky, hl]
  rw [keylen_of_key hky, length_append, length_append, if_neg (by push_cast; omega),
    if_neg (by push_cast; omega), if_pos (by push_cast; omega), drop_left' rfl]
  by_cases hk : k = []
  · subst hk
    rw [if_neg (by simp), if_pos rfl]
  · have hkp := length_pos_of_ne_nil hk
    rw [if_pos (by omega), if_neg hk, addChildCheck_literal fun h => hat (mem_append_right p h)]

/-! ### Whole insertions -/

/-- What the insertion of a key into a child with its first byte makes of the child -/
def InsertsInto (env : ParserEnv) (v : V) (fuel : ℕ) : Prop :=
  ∀ {M : Bytes → Option V} {c : RNode V} {key : Bytes}, IsChild M c →
    key.head? = some c.firstByte → 0x40 ∉ key → key.length ≤ fuel →
      IsChild (put M key v) (insertWithin env v fuel c key) ∧
        (insertWithin env v fuel c key).firstByte = c.firstByte

/-- A node takes a key that goes on behind its own. -/
theorem Holds.insert_append (ih : InsertsInto env v fuel) (h : Holds t m) (hk : t.key = some u)
    (hat : 0x40 ∉ u ++ b :: k) (hfl : (b :: k).length ≤ fuel)
    (hl : commonLen (u ++ b :: k) u = u.length) :
    Holds (insertWithin env v (fuel + 1) t (u ++ b :: k)) (put m (b :: k) v) ∧
      (insertWithin env v (fuel + 1) t (u ++ b :: k)).key = some u := by
  rw [insertWithin_append hk hat hl]
  cases hf : findChildByFirstCharacter t.children b with
  | none =>
    refine ⟨h.addLeaf (fun hs => ?_) k, hk⟩
    cases h with | intro value pchildren sorted distinct edge child present =>
    exact findChild_none sorted hs hf
  | some j =>
    obtain ⟨hs, c, hg, rfl⟩ := findChild_some hf
    obtain ⟨hc, hfr⟩ := ih (h.isChild (mem_of_getElem? hg) hs) rfl
      (fun hm => hat (mem_append_right u hm)) hfl
    exact ⟨h.modifyChild hg hs rfl hfr hc, hk⟩

theorem firstByte_of_key {w : Bytes} (hk : c.key = some w) : c.firstByte = charAt w 0 := by
  unfold firstByte
  rw [text_of_key hk]

theorem isChild_leaving (hc : c.key = some (p ++ q)) (he : Edge (keys M) (p ++ q))
    (hh : Holds c (below M (p ++ q))) (hp : p ≠ []) (hq : q ≠ []) (hne : k.head? ≠ q.head?)
    (hat : 0x40 ∉ p ++ k) (hl : commonLen (p ++ k) (p ++ q) = p.length) :
    IsChild (put M (p ++ k) v) (insertWithin env v (fuel + 1) c (p ++ k)) ∧
      (insertWithin env v (fuel + 1) c (p ++ k)).key = some p := by
  obtain ⟨hs, hky, hf⟩ := hh.split hc he rfl hp hq
  have he' : Edge (keys (put M (p ++ k) v)) p := by
    rw [keys_put]
    exact he.insert_leaving rfl hp hq hne
  rw [insertWithin_leaving hc hp hq hat hl]
  split_ifs with hk
  · subst hk
    refine ⟨.of_key hky he' ?_, hky⟩
    rw [below_put]
    exact hs.setValueOnce
  · obtain ⟨a, k, rfl⟩ := exists_cons_of_ne_nil hk
    refine ⟨.of_key hky he' ?_, hky⟩
    rw [below_put]
    refine hs.addLeaf (fun _ d hd heq => ?_) k
    -- the old rest is the only child, and begins with another byte
    have hd' : d.firstByte ∈ (c.split p.length).children.map firstByte := List.mem_map_of_mem hd
    rw [hf, mem_singleton, heq] at hd'
    obtain ⟨e, q, rfl⟩ := exists_cons_of_ne_nil hq
    exact hne (congrArg some hd')

theorem insertsInto (env : ParserEnv) (v : V) (fuel : ℕ) : InsertsInto env v fuel := by
  induction fuel with
  | zero =>
    intro M c key h hhd hat hf
    rw [length_eq_zero_iff.mp (Nat.le_zero.mp hf)] at hhd
    simp at hhd
  | succ fuel ih =>
    intro M c key h hhd hat hf
    obtain ⟨p, k, q, rfl, hq, hln, hl⟩ := commonLen_spec hat c.text
    obtain ⟨hc, he, hh⟩ := h
    -- both begin with the same byte, so that they have something in common
    have hp : p ≠ [] := by
      rintro rfl
      rw [nil_append] at hhd hq
      rw [← head?_text he.ne_nil, hq] at hhd
      rcases hl with rfl | rfl | hne
      · rw [List.head?_nil, eq_comm, List.head?_eq_none_iff] at hhd
        exact he.ne_nil (hq.trans hhd)
      · exact he.ne_nil hq
      · exact hne hhd
    have hfr : c.firstByte = charAt p 0 := by
      rw [firstByte_of_key (hc.trans (congrArg some hq))]
      obtain ⟨a, p, rfl⟩ := exists_cons_of_ne_nil hp
      rfl
    suffices hch : IsChild (put M (p ++ k) v) (insertWithin env v (fuel + 1) c (p ++ k)) ∧
        (insertWithin env v (fuel + 1) c (p ++ k)).key = some p by
      exact ⟨hch.1, by rw [firstByte_of_key hch.2, hfr]⟩
    rw [hq] at hc he hh hln
    by_cases hqn : q = []
    · subst hqn
      rw [append_nil] at hc he hh hln
      have he' : Edge (keys (put M (p ++ k) v)) p := by
        rw [keys_put]
        exact he.insert_append k
      cases k with
      | nil =>
        have hs : insertWithin env v (fuel + 1) c (p ++ []) = c.setValueOnce v := by
          rw [append_nil] at hat hln ⊢
          exact insertWithin_self hc hp hat hln
        rw [hs]
        refine ⟨.of_key hc he' ?_, hc⟩
        rw [below_put]
        exact hh.setValueOnce
      | cons b k =>
        have hr : (b :: k).length ≤ fuel := by
          have hps := length_pos_of_ne_nil hp
          rw [length_append] at hf
          omega
        obtain ⟨hh', hk⟩ := hh.insert_append ih hc hat hr hln
        refine ⟨.of_key hk he' ?_, hk⟩
        rw [below_put]
        exact hh'
    · have hne : k.head? ≠ q.head? := by
        rcases hl with rfl | rfl | hne
        · obtain ⟨a, q, rfl⟩ := exists_cons_of_ne_nil hqn
          simp
        · exact absurd rfl hqn
        · exact hne
      exact isChild_leaving hc he hh hp hqn hne hat hln

theorem Holds.insertNode (h : Holds t m) (hk : t.key = some []) (hn : key ≠ [])
    (hat : 0x40 ∉ key) :
    Holds (insertNode env t key v) (put m key v) ∧ (insertNode env t key v).key = some [] := by
  obtain ⟨b, k, rfl⟩ := exists_cons_of_ne_nil hn
  exact h.insert_append (insertsInto env v _) hk hat (by omega) (by rfl)

/-! ### Lookup in a tree of literals -/

theorem holds_build (env : ParserEnv) (value : Bytes → V) {inserted : List Bytes}
    (hi : ∀ x ∈ inserted, x ≠ [] ∧ 0x40 ∉ x) :
    Holds (build env (inserted.map fun x => (x, value x)))
        (fun x => if x ∈ inserted then some (value x) else none) ∧
      (build env (inserted.map fun x => (x, value x))).key = some [] := by
  induction inserted using List.reverseRecOn with
  | nil =>
    refine ⟨.intro' rfl rfl nil nil ?_ ?_, rfl⟩
    · intro c hc
      simp [build, newNode] at hc
    · intro b s hs
      simp [PrefixMap.keys] at hs
  | append_singleton inserted x ih =>
    obtain ⟨hh, hk⟩ := ih fun y hy => hi y (mem_append_left _ hy)
    obtain ⟨hx, hat⟩ := hi x (by simp)
    have hb : build env ((inserted ++ [x]).map fun x => (x, value x)) =
        insertNode env (build env (inserted.map fun x => (x, value x))) x (value x) := by
      simp [build]
    have hm : (fun y => if y ∈ inserted ++ [x] then some (value y) else none) =
        put (fun y => if y ∈ inserted then some (value y) else none) x (value x) := by
      funext y
      unfold put
      by_cases hyx : y = x
      · subst hyx
        by_cases hy : y ∈ inserted <;> simp [hy]
      · simp [hyx]
    rw [hb, hm]
    exact hh.insertNode hk hx hat

/-- The longest of the inserted keys that `k` begins with: `k` itself if it was inserted -/
def longestInserted (inserted : List Bytes) (k : Bytes) : Option Bytes :=
  let x := k.take (Nat.findGreatest (fun n => k.take n ∈ inserted) k.length)
  if x ∈ inserted then some x else none

variable {inserted : List Bytes} {x : Bytes}

theorem longestInserted_eq_some (h : longestInserted inserted k = some x) :
    x <+: k ∧ x ∈ inserted ∧ ∀ y ∈ inserted, y <+: k → y <+: x := by
  unfold longestInserted at h
  dsimp only at h
  split_ifs at h with hm
  rw [Option.some.injEq] at h
  subst h
  refine ⟨⟨_, take_append_drop _ _⟩, hm, fun y hy hyk => ?_⟩
  have hl := hyk.length_le
  have ht : k.take y.length ∈ inserted := by rwa [← prefix_iff_eq_take.mp hyk]
  have hle := Nat.le_findGreatest (P := fun n => k.take n ∈ inserted) hl ht
  rw [prefix_iff_eq_take.mp hyk]
  exact take_prefix_take_left hle

theorem longestInserted_eq_none (h : longestInserted inserted k = none) :
    ∀ y ∈ inserted, ¬ y <+: k := by
  intro y hy hyk
  unfold longestInserted at h
  dsimp only at h
  split_ifs at h with hm
  apply hm
  have ht : k.take y.length ∈ inserted := by rwa [← prefix_iff_eq_take.mp hyk]
  exact Nat.findGreatest_spec (P := fun n => k.take n ∈ inserted) hyk.length_le ht

/-- A lookup finds the longest key exactly if no byte above `0x7f` stands behind a node on the way
to it: behind the beginning, an inserted key, or the point where two inserted keys part. -/
theorem findNode_literal_iff (env : ParserEnv) (inserted : List Bytes)
    (hinserted : ∀ x ∈ inserted, x ≠ [] ∧ 0x40 ∉ x) (k tail : Bytes) :
    (∀ (V : Type) (value : Bytes → V) (storedMatches : Option (List RParserMatch)),
      ((build env (inserted.map fun x => (x, value x))).findNode env (k ++ tail) k.length
        storedMatches).1.bind NodeRef.value = (longestInserted inserted k).map value) ↔
      ∀ x, longestInserted inserted k = some x → Passes SevenBit {y | y ∈ inserted} x := by
  have hk : ∀ {V : Type} (value : Bytes → V),
      keys (fun x => if x ∈ inserted then some (value x) else none) = {y | y ∈ inserted} := by
    intro V value
    ext y
    by_cases hy : y ∈ inserted <;> simp [PrefixMap.keys]
  constructor
  · intro h x hx
    obtain ⟨hh, hky⟩ := holds_build env id hinserted
    have hb := hh.findNode_isBest env hky k tail none
    rw [h Bytes id none, hx, Option.map_some] at hb
    rcases hb with ⟨y, -, ho, hy, -⟩ | ⟨hn, -⟩
    · rw [hk] at ho
      have hm : y ∈ inserted := ho.1
      dsimp only at hy
      rw [if_pos hm, Option.some.injEq] at hy
      have hyx : y = x := hy
      exact hyx ▸ ho.2
    · simp at hn
  · intro h V value storedMatches
    obtain ⟨hh, hky⟩ := holds_build env value hinserted
    have hb := hh.findNode_isBest env hky k tail storedMatches
    unfold IsBest at hb
    rw [hk] at hb
    generalize ((build env (inserted.map fun x => (x, value x))).findNode env (k ++ tail) k.length
      storedMatches).1.bind NodeRef.value = ret at hb ⊢
    cases hl : longestInserted inserted k with
    | none =>
      have hn := longestInserted_eq_none hl
      rcases hb with ⟨y, hyk, ho, -, -⟩ | ⟨hr, -⟩
      · exact absurd hyk (hn y ho.1)
      · exact hr
    | some x =>
      obtain ⟨hxk, hx, hmx⟩ := longestInserted_eq_some hl
      have ho : Open SevenBit {y | y ∈ inserted} x := ⟨hx, h x hl⟩
      rcases hb with ⟨y, hyk, hyp, hy, hym⟩ | ⟨-, hn⟩
      · have hxy : y = x := (hmx y hyp.1 hyk).eq_of_length_le (hym x hxk ho).length_le
        have hm : y ∈ inserted := hyp.1
        dsimp only at hy
        rw [if_pos hm] at hy
        rw [← hy, hxy]
        rfl
      · exact absurd ho (hn x hxk)

/-- The patterns `a`, `abé` and the text `abé!`: `é` stands inside an edge. -/
theorem findNode_literal_insideEdge :
    longestInserted [[0x61], [0x61, 0x62, 0xc3, 0xa9]] [0x61, 0x62, 0xc3, 0xa9, 0x21] =
        some [0x61, 0x62, 0xc3, 0xa9] ∧
      ((build { valueHandle := fun _ => 0, pcreExec := fun _ _ => none }
        ([[0x61], [0x61, 0x62, 0xc3, 0xa9]].map fun x => (x, x))).findNode
          { valueHandle := fun _ => 0, pcreExec := fun _ _ => none }
          ([0x61, 0x62, 0xc3, 0xa9, 0x21] ++ [0]) 5 none).1.bind NodeRef.value =
        some [0x61, 0x62, 0xc3, 0xa9] := by
  refine ⟨by decide, ?_⟩
  refine (findNode_literal_iff { valueHandle := fun _ => 0, pcreExec := fun _ _ => none }
    [[0x61], [0x61, 0x62, 0xc3, 0xa9]] (by decide) [0x61, 0x62, 0xc3, 0xa9, 0x21] [0]).mpr ?_
    Bytes id none
  intro x hx
  obtain rfl : [0x61, 0x62, 0xc3, 0xa9] = x := Option.some.inj ((by decide : _ = _).trans hx)
  intro p a s he hn
  rcases p with _ | ⟨p₁, _ | ⟨p₂, _ | ⟨p₃, _ | ⟨p₄, p⟩⟩⟩⟩ <;>
    simp only [nil_append, cons_append, List.cons.injEq] at he
  · rw [← he.1]
    unfold SevenBit
    decide
  · rw [← he.2.1]
    unfold SevenBit
    decide
  · simp [IsNode, Fork, under] at hn
  · simp [IsNode, Fork, under] at hn
  · simp at he

/-- The pattern `é` is not found in the text `é`. -/
theorem findNode_literal_missed : longestInserted [[0xc3, 0xa9]] [0xc3, 0xa9] = some [0xc3, 0xa9] ∧
      ((build { valueHandle := fun _ => 0, pcreExec := fun _ _ => none }
        [([0xc3, 0xa9], 1)]).findNode { valueHandle := fun _ => 0, pcreExec := fun _ _ => none }
          ([0xc3, 0xa9] ++ [0]) 2 none).1.bind NodeRef.value = (none : Option ℕ) := by
  decide

end SyslogNg.PatternDb.RNode
