import SyslogNg.LogQueue.Conservation

/-!
# The order messages are popped in

For each thread, what was not popped yet is in the output list, the wait list and its input list
in the order of the pushes, and behind everything of this thread that was popped.
-/
namespace SyslogNg.LogQueue.Fifo

open List List.Subset Function

variable {ι : Type*} [DecidableEq ι]

def unpopped (pops : List ℕ) (pushes : List (Option ι)) (t : Option ι) (m : ℕ) : Bool :=
  m ∉ pops ∧ pushes[m]? = some t

@[simp]
theorem unpopped_iff {pops : List ℕ} {pushes : List (Option ι)} {t : Option ι} {m : ℕ} :
    unpopped pops pushes t m = true ↔ m ∉ pops ∧ pushes[m]? = some t := by
  simp [unpopped]

/-- Messages of a thread that were not popped yet, in the order they are going to be. -/
def fresh (q : Fifo ι) (t : Option ι) : List ℕ :=
  ((q.qoverflowOutput ++ q.qoverflowWait).map Node.msg).filter (unpopped q.pops q.pushes t) ++
    (t.elim [] q.input).map Node.msg

structure Ordered (q : Fifo ι) : Prop where
  inputThread : ∀ i, ∀ node ∈ q.input i, q.pushes[node.msg]? = some (some i)
  sorted : ∀ t, (q.fresh t).Pairwise (· < ·)
  later : ∀ t, ∀ a ∈ q.pops, q.pushes[a]? = some t → ∀ b ∈ q.fresh t, a < b
  first : ∀ t a b, q.pushes[a]? = some t → q.pushes[b]? = some t → a < b → b ∈ q.pops →
    (∀ node ∈ q.dropped, node.msg ≠ a) → q.pops.idxOf a < q.pops.idxOf b

theorem ordered_new (size : ℤ) : (new size true : Fifo ι).Ordered := by
  have hn : ∀ t, (new size true : Fifo ι).fresh t = [] := by
    intro t
    cases t <;> rfl
  refine ⟨by simp [new], fun t => ?_, by simp [hn], by simp [new]⟩
  rw [hn]
  exact List.Pairwise.nil

variable {q q' : Fifo ι} {i : ι} {node : Node} {m : ℕ} {t : Option ι}

/-- A move that pops nothing and keeps the order. -/
theorem Ordered.mono (h : q.Ordered) (hpp : q'.pops = q.pops) (hp : q'.pushes = q.pushes)
    (hd : q.dropped ⊆ q'.dropped) (hi : ∀ i, q'.input i ⊆ q.input i)
    (hf : ∀ t, (q'.fresh t).Sublist (q.fresh t)) : q'.Ordered := by
  constructor
  · intro i node hn
    rw [hp]
    exact h.inputThread i node (hi i hn)
  · intro t
    exact (h.sorted t).sublist (hf t)
  · intro t a ha hat b hb
    rw [hpp] at ha
    rw [hp] at hat
    exact h.later t a ha hat b ((hf t).subset hb)
  · intro t a b ha hb hab hpo hk
    rw [hpp] at hpo ⊢
    rw [hp] at ha hb
    exact h.first t a b ha hb hab hpo fun node hn => hk node (hd hn)

theorem Ordered.dropInput (h : q.Ordered) : (q.dropInput i).Ordered := by
  cases hin : q.input i with
  | nil => rwa [dropInput_nil hin]
  | cons node rest =>
    rw [dropInput_cons hin]
    have hsb : ∀ j, (update q.input i rest j).Sublist (q.input j) := by
      intro j
      by_cases hj : j = i
      · subst hj
        simp [hin]
      · simp [hj]
    refine h.mono rfl rfl (subset_append_left _ _) (fun j => (hsb j).subset) fun t => ?_
    refine (List.Sublist.refl _).append (List.Sublist.map _ ?_)
    cases t with
    | none => exact List.Sublist.refl _
    | some j => exact hsb j

theorem filter_popped {l : List Node} (h : ∀ node ∈ l, node.msg ∈ q.pops) :
    (l.map Node.msg).filter (unpopped q.pops q.pushes t) = [] := by
  rw [filter_eq_nil_iff]
  intro m hm
  obtain ⟨node, hn, rfl⟩ := List.mem_map.mp hm
  simp [h node hn]

/-- Messages that were popped before may come back anywhere in the output list. -/
theorem Ordered.putBack (h : q.Ordered) (before back after : List Node)
    (ho : q.qoverflowOutput = before ++ after) (hb : ∀ node ∈ back, node.msg ∈ q.pops)
    (hpp : q'.pops = q.pops) (hp : q'.pushes = q.pushes) (hd : q'.dropped = q.dropped)
    (hi : q'.input = q.input) (hw : q'.qoverflowWait = q.qoverflowWait)
    (ho' : q'.qoverflowOutput = before ++ back ++ after) : q'.Ordered := by
  refine h.mono hpp hp (hd ▸ refl _)
    (fun i => hi ▸ refl _) fun t => ?_
  have hf : q'.fresh t = q.fresh t := by
    simp only [fresh, hpp, hp, hi, hw, ho, ho', map_append,
      filter_append, filter_popped hb, append_nil]
  exact hf ▸ List.Sublist.refl _

theorem Ordered.ackBacklog (h : q.Ordered) (n : ℕ) : (q.ackBacklog n).Ordered := by
  induction n generalizing q with
  | zero => exact h
  | succ n ih =>
    simp only [Fifo.ackBacklog]
    split_ifs
    · apply ih
      cases hb : q.qbacklog with
      | nil => rwa [ackOne_nil hb]
      | cons node rest =>
        rw [ackOne_cons hb]
        exact h.mono rfl rfl (refl _) (fun _ => refl _)
          fun _ => List.Sublist.refl _
    · exact h

section Sound

variable [Fintype ι]

theorem Ordered.spliceInput (h : q.Ordered) (hs : q.Sound) : (q.spliceInput i).Ordered := by
  have hi : ∀ j, (q.spliceInput i).input j ⊆ q.input j := by
    intro j
    by_cases hj : j = i
    · subst hj
      simp [Fifo.spliceInput]
    · simp [Fifo.spliceInput, hj]
  refine h.mono rfl rfl (refl _) hi fun t => ?_
  -- what is moved was not popped yet
  have hf : (q.spliceInput i).fresh t = q.fresh t := by
    simp only [fresh, Fifo.spliceInput, map_append, filter_append, append_assoc]
    congr 2
    by_cases ht : t = some i
    · subst ht
      simp only [Option.elim_some, update_self, map_nil, append_nil]
      refine filter_eq_self.mpr fun m hm => ?_
      obtain ⟨node, hn, rfl⟩ := List.mem_map.mp hm
      simp [hs.inputFresh i node hn, h.inputThread i node hn]
    · have hnl : ((q.input i).map Node.msg).filter (unpopped q.pops q.pushes t) = [] := by
        refine filter_eq_nil_iff.mpr fun m hm => ?_
        obtain ⟨node, hn, rfl⟩ := List.mem_map.mp hm
        simp [h.inputThread i node hn, Ne.symm ht]
      rw [hnl]
      cases t with
      | none => rfl
      | some j =>
        have hj : j ≠ i := fun hj => ht (hj ▸ rfl)
        simp [hj]
  exact hf ▸ List.Sublist.refl _

/-- One more push changes nothing for the messages that are there. -/
theorem filter_push (hs : q.Sound) (thread t : Option ι) :
    ((q.qoverflowOutput ++ q.qoverflowWait).map Node.msg).filter
        (unpopped q.pops (q.pushes ++ [thread]) t) =
      ((q.qoverflowOutput ++ q.qoverflowWait).map Node.msg).filter
        (unpopped q.pops q.pushes t) := by
  refine filter_congr fun m hm => ?_
  rw [unpopped, unpopped, List.getElem?_append_left (hs.msg_lt hm)]

section

variable (h : q.Ordered) (hs : q.Sound)
include h hs

theorem Ordered.fresh_lt (hm : m ∈ q.fresh t) : m < q.pushes.length := by
  rcases mem_append.mp hm with hm | hm
  · exact hs.msg_lt (mem_filter.mp hm).1
  · cases t with
    | none => simp at hm
    | some i =>
      obtain ⟨node, hn, rfl⟩ := List.mem_map.mp hm
      exact (List.getElem?_eq_some_iff.mp (h.inputThread i node hn)).1

/-- A message with the next number, at the end of what its thread pushed before. -/
theorem Ordered.push {thread : Option ι} (hpp : q'.pops = q.pops)
    (hp : q'.pushes = q.pushes ++ [thread]) (hd : q.dropped ⊆ q'.dropped)
    (hi : ∀ i, ∀ node ∈ q'.input i, q'.pushes[node.msg]? = some (some i))
    (hf : ∀ t, (q'.fresh t).Sublist
      (q.fresh t ++ if t = thread then [q.pushes.length] else [])) : q'.Ordered := by
  have ho : ∀ {m : ℕ} {t : Option ι}, m < q.pushes.length → q'.pushes[m]? = some t →
      q.pushes[m]? = some t := by
    intro m t hm h'
    rwa [hp, List.getElem?_append_left hm] at h'
  refine ⟨hi, fun t => ?_, fun t a ha hat b hb => ?_, fun t a b hat hbt hab hb hk => ?_⟩
  · refine List.Pairwise.sublist (hf t) (pairwise_append.mpr ⟨h.sorted t, ?_, ?_⟩)
    · split_ifs <;> simp
    · intro a ha b hb
      split_ifs at hb with ht
      · rw [mem_singleton.mp hb]
        exact h.fresh_lt hs ha
      · simp at hb
  · rw [hpp] at ha
    have hal := hs.popsLt a ha
    rcases mem_append.mp ((hf t).subset hb) with hb | hb
    · exact h.later t a ha (ho hal hat) b hb
    · split_ifs at hb
      · rwa [mem_singleton.mp hb]
      · simp at hb
  · rw [hpp] at hb ⊢
    have hbl := hs.popsLt b hb
    exact h.first t a b (ho (hab.trans hbl) hat) (ho hbl hbt) hab hb
      fun node hn => hk node (hd hn)

theorem Ordered.pushTail (thread : Option ι) (queueLen : ℤ)
    (ackNeeded fc : Bool) : (q.pushTail thread queueLen ackNeeded fc).Ordered := by
  have ho : ∀ j, ∀ node ∈ q.input j, (q.pushes ++ [thread])[node.msg]? = some (some j) := by
    intro j node hn
    have ht := h.inputThread j node hn
    rwa [List.getElem?_append_left (List.getElem?_eq_some_iff.mp ht).1]
  cases thread with
  | some i =>
    refine h.push hs rfl rfl (refl _) (fun j node hn => ?_) fun t => ?_
    · by_cases hj : j = i
      · subst hj
        simp only [Fifo.pushTail, update_self] at hn ⊢
        rcases mem_append.mp hn with hn | hn
        · exact ho j node hn
        · simp [mem_singleton.mp hn]
      · simp only [Fifo.pushTail, update_of_ne hj] at hn ⊢
        exact ho j node hn
    · simp only [fresh, Fifo.pushTail, filter_push hs, append_assoc]
      refine (List.Sublist.refl _).append ?_
      cases t with
      | none => simp
      | some j =>
        by_cases hj : j = i
        · subst hj
          simp
        · simp [hj]
  | none =>
    simp only [Fifo.pushTail]
    split_ifs
    · refine h.push hs rfl rfl (refl _) ho fun t => ?_
      have hnw := hs.notMem_pops
      have hm : ∀ n : Node, (q.qoverflowOutput ++ (q.qoverflowWait ++ [n])).map Node.msg =
          (q.qoverflowOutput ++ q.qoverflowWait).map Node.msg ++ [n.msg] := by simp
      simp only [fresh, hm, filter_append, filter_push hs]
      cases t with
      | none => simp [hnw]
      | some j => simp
    · refine h.push hs rfl rfl (subset_append_left _ _) ho fun t => ?_
      simp only [fresh, drop, filter_push hs]
      exact sublist_append_left _ _

end

/-- The message popped next is the first one of its thread that was not popped yet. -/
theorem fresh_take (hs : q.Sound) {rest : List Node} (ho : q.qoverflowOutput = node :: rest)
    (t : Option ι) : q.fresh t =
      (if unpopped q.pops q.pushes t node.msg then [node.msg] else []) ++ q.take.fresh t := by
  have hf : ((rest ++ q.qoverflowWait).map Node.msg).filter
      (unpopped (q.pops ++ [node.msg]) q.pushes t) =
      ((rest ++ q.qoverflowWait).map Node.msg).filter (unpopped q.pops q.pushes t) := by
    refine filter_congr fun m hm => ?_
    obtain ⟨n, hn, rfl⟩ := List.mem_map.mp hm
    by_cases heq : n.msg = node.msg
    · -- otherwise the message would be in two places
      have hp : n.msg ∈ q.pops := by
        by_contra hfresh
        have hon := hs.places_le_one hfresh
        have hoc := occ_pos.mpr ⟨n, hn, rfl⟩
        simp only [places, ho, occ_append, occ_cons, if_pos heq] at hon hoc
        omega
      simp [unpopped, hp]
    · simp [unpopped, heq]
  rw [take_cons hs.useBacklog ho]
  simp only [fresh, ho, cons_append, map_cons, filter_cons, hf]
  split_ifs <;> simp

section

variable (h : q.Ordered) (hs : q.Sound)
include h hs

theorem Ordered.mem_fresh (ht : q.pushes[m]? = some t)
    (hpp : m ∉ q.pops) (hk : ∀ node ∈ q.dropped, node.msg ≠ m) : m ∈ q.fresh t := by
  have hp := hs.conserved m
  rw [if_pos (List.getElem?_eq_some_iff.mp ht).1] at hp
  have hm : ∀ {l : List Node}, 0 < occ m l → ∃ node ∈ l, node.msg = m := by
    intro l hl
    obtain ⟨node, hn, rfl⟩ := occ_pos.mp hl
    exact ⟨node, hn, rfl⟩
  have hb : occ m q.qbacklog = 0 := by
    by_contra hps
    obtain ⟨node, hn, rfl⟩ := hm (Nat.pos_of_ne_zero hps)
    exact hpp (hs.backlogPopped node hn)
  have ha : occ m q.acked = 0 := by
    by_contra hps
    obtain ⟨node, hn, rfl⟩ := hm (Nat.pos_of_ne_zero hps)
    exact hpp (hs.ackedPopped node hn)
  have hd : occ m q.dropped = 0 := by
    by_contra hps
    obtain ⟨node, hn, hms⟩ := hm (Nat.pos_of_ne_zero hps)
    exact hk node hn hms
  by_cases hin : 0 < ∑ i, occ m (q.input i)
  · obtain ⟨i, -, hi⟩ := Finset.exists_ne_zero_of_sum_ne_zero hin.ne'
    obtain ⟨node, hn, rfl⟩ := hm (Nat.pos_of_ne_zero hi)
    have hsm := h.inputThread i node hn
    rw [ht, Option.some_inj] at hsm
    subst hsm
    exact mem_append_right _ (List.mem_map_of_mem hn)
  · have ho : 0 < occ m (q.qoverflowOutput ++ q.qoverflowWait) := by
      simp only [places, occ_append] at hp ⊢
      omega
    obtain ⟨node, hn, rfl⟩ := hm ho
    refine mem_append_left _ (mem_filter.mpr ⟨List.mem_map_of_mem hn, ?_⟩)
    exact unpopped_iff.mpr ⟨hpp, ht⟩

theorem Ordered.take : q.take.Ordered := by
  cases hot : q.qoverflowOutput with
  | nil => rwa [take_nil hot]
  | cons node rest =>
    have hf := fresh_take hs hot
    rw [take_cons hs.useBacklog hot] at hf ⊢
    have hsb : ∀ t b, b ∈ fresh { q with
        qoverflowOutput := rest
        qoverflowOutputLen := q.qoverflowOutputLen - 1
        storedMessages := q.storedMessages - 1
        qbacklog := q.qbacklog ++ [node]
        qbacklogLen := q.qbacklogLen + 1
        pops := q.pops ++ [node.msg] } t → b ∈ q.fresh t ∧
          (node.msg ∉ q.pops → q.pushes[node.msg]? = some t → node.msg < b) := by
      intro t b hb
      have hsr := h.sorted t
      rw [hf t] at hsr ⊢
      refine ⟨mem_append_right _ hb, fun hn ht => ?_⟩
      rw [if_pos (unpopped_iff.mpr ⟨hn, ht⟩)] at hsr
      exact (pairwise_append.mp hsr).2.2 _ (mem_singleton_self _) b hb
    refine ⟨h.inputThread, fun t => ?_, fun t a ha hat b hb => ?_, ?_⟩
    · have hsr := h.sorted t
      rw [hf t] at hsr
      exact (pairwise_append.mp hsr).2.1
    · obtain ⟨hb, hgt⟩ := hsb t b hb
      by_cases ho : a ∈ q.pops
      · exact h.later t a ho hat b hb
      · rcases mem_append.mp ha with ha | ha
        · exact absurd ha ho
        · rw [mem_singleton.mp ha] at ho hat ⊢
          exact hgt ho hat
    · intro t a b hat hbt hab hb hk
      by_cases ho : b ∈ q.pops
      · have hlt := h.first t a b hat hbt hab ho hk
        have hm : a ∈ q.pops := idxOf_lt_length_iff.mp (hlt.trans_le idxOf_le_length)
        rwa [idxOf_append_of_mem hm, idxOf_append_of_mem ho]
      · -- a fresh message is popped after all that its thread pushed before
        have hbn : b = node.msg :=
          mem_singleton.mp ((mem_append.mp hb).resolve_left ho)
        have hm : a ∈ q.pops := by
          by_contra hnot
          have ha := h.mem_fresh hs hat hnot hk
          rw [hf t, mem_append] at ha
          rcases ha with ha | ha
          · split_ifs at ha
            · rw [mem_singleton.mp ha, hbn] at hab
              exact lt_irrefl _ hab
            · simp at ha
          · have := (hsb t a ha).2 (hbn ▸ ho) (hbn ▸ hbt)
            omega
        have hlt : q.pops.idxOf a < q.pops.length := idxOf_lt_length_iff.mpr hm
        rw [idxOf_append_of_mem hm, idxOf_append_of_notMem ho]
        omega

theorem Ordered.moveInput (queueLen : ℤ) : (q.moveInput i queueLen).Ordered := by
  have hd : ∀ n, ((Fifo.dropInput i)^[n] q).Sound ∧ ((Fifo.dropInput i)^[n] q).Ordered :=
    fun n => Function.Iterate.rec (fun q : Fifo ι => q.Sound ∧ q.Ordered) ⟨hs, h⟩
      (fun _ h => ⟨h.1.dropInput, h.2.dropInput⟩) n
  simp only [Fifo.moveInput]
  split_ifs
  · exact (hd _).2.spliceInput (hd _).1
  · exact h.spliceInput hs

theorem Ordered.popHead : q.popHead.Ordered := by
  have hr : (if q.qoverflowOutputLen = 0 then q.refill else q).Sound ∧
      (if q.qoverflowOutputLen = 0 then q.refill else q).Ordered := by
    split_ifs with he
    · refine ⟨hs.refill he, h.mono rfl rfl (refl _) (fun _ => refl _) fun t => ?_⟩
      have hf : q.refill.fresh t = q.fresh t := by simp [fresh, Fifo.refill]
      exact hf ▸ List.Sublist.refl _
    · exact ⟨hs, h⟩
  simp only [Fifo.popHead]
  generalize (if q.qoverflowOutputLen = 0 then q.refill else q) = q' at hr ⊢
  split_ifs
  · exact hr.2.take hr.1
  · exact hr.2

theorem Ordered.rewindOne : q.rewindOne.Ordered := by
  rcases eq_nil_or_concat q.qbacklog with hb | ⟨rest, node, hb⟩
  · rwa [rewindOne_nil hb]
  · rw [concat_eq_append] at hb
    rw [rewindOne_concat hb]
    refine h.putBack [] [node] _ rfl ?_ rfl rfl rfl rfl rfl rfl
    rintro n hn
    refine hs.backlogPopped n ?_
    rw [hb]
    exact mem_append_right _ hn

theorem Ordered.apply {op : FifoOp ι} (hok : q.Allowed op) : (q.apply op).Ordered := by
  cases op with
  | pushTail thread queueLen ackNeeded fc => exact h.pushTail hs thread queueLen ackNeeded fc
  | moveInput i queueLen => exact h.moveInput hs queueLen
  | popHead => exact h.popHead hs
  | ackBacklog n => exact h.ackBacklog n
  | rewindBacklog n =>
    exact (Function.Iterate.rec (fun q : Fifo ι => q.Sound ∧ q.Ordered) ⟨hs, h⟩
      (fun _ h => ⟨h.1.rewindOne, h.2.rewindOne h.1⟩) _).2
  | rewindBacklogAll =>
    exact h.putBack _ _ [] (append_nil _).symm hs.backlogPopped rfl rfl rfl rfl rfl
      (append_nil _).symm
  | pushHead node =>
    refine h.putBack [] [node] _ rfl ?_ rfl rfl rfl rfl rfl rfl
    rintro n hn
    rw [mem_singleton.mp hn]
    exact List.mem_of_getLast? hok

end

end Sound

end SyslogNg.LogQueue.Fifo
