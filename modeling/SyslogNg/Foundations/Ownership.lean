import SyslogNg.Foundations.Image

/-!
# Owners of memory

Every address has one owner. Regions of different owners do not meet, so that a write to what one
owner has leaves what the others have as it is.
-/
namespace SyslogNg

section Owner

variable {O : Type*} {own : ℤ → O} {lo hi lo' hi' i : ℤ} {o o' o'' : O}

def OwnedBy (own : ℤ → O) (lo hi : ℤ) (o : O) : Prop := ∀ i, lo ≤ i → i < hi → own i = o

def assign (own : ℤ → O) (lo hi : ℤ) (o : O) : ℤ → O :=
  fun i => if lo ≤ i ∧ i < hi then o else own i

theorem assign_of_mem (hlo : lo ≤ i) (hhi : i < hi) : assign own lo hi o i = o := if_pos ⟨hlo, hhi⟩

theorem assign_of_not_mem (h : ¬(lo ≤ i ∧ i < hi)) : assign own lo hi o i = own i := if_neg h

theorem assign_of_ne (ho : OwnedBy own lo hi o') (hne : own i ≠ o') :
    assign own lo hi o i = own i :=
  assign_of_not_mem fun hm => hne (ho i hm.1 hm.2)

theorem of_assign (h : assign own lo hi o i = o') (hne : o ≠ o') : own i = o' := by
  unfold assign at h
  split_ifs at h
  · exact absurd h hne
  · exact h

theorem ownedBy_assign : OwnedBy (assign own lo hi o) lo hi o :=
  fun _ hlo hhi => assign_of_mem hlo hhi

theorem OwnedBy.mono (h : OwnedBy own lo hi o) (hlo : lo ≤ lo') (hhi : hi' ≤ hi) :
    OwnedBy own lo' hi' o :=
  fun i hge hlt => h i (hlo.trans hge) (hlt.trans_le hhi)

theorem OwnedBy.assign_of_ne (h : OwnedBy own lo hi o) (ho : OwnedBy own lo' hi' o')
    (hne : o ≠ o') :
    OwnedBy (assign own lo' hi' o'') lo hi o := by
  intro i hlo hhi
  have hi := h i hlo hhi
  rw [SyslogNg.assign_of_ne ho (by rwa [hi]), hi]

theorem OwnedBy.assign_of_disjoint (h : OwnedBy own lo hi o) (hd : hi ≤ lo' ∨ hi' ≤ lo) :
    OwnedBy (assign own lo' hi' o') lo hi o := by
  intro i hlo hhi
  rw [assign_of_not_mem (by omega), h i hlo hhi]

end Owner

namespace Image

variable {O : Type*} {own : ℤ → O} {m : Image} {ofs : ℤ} {bytes : List UInt8} {o : O}

theorem write_of_ownedBy (h : OwnedBy own ofs (ofs + bytes.length) o) {i : ℤ} (hne : own i ≠ o) :
    m.write ofs bytes i = m i :=
  write_of_not_mem fun hm => hne (h i hm.1 hm.2)

end Image
end SyslogNg
