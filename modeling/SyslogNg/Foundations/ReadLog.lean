import SyslogNg.Foundations.Image

/-!
# Reading memory, with a log

A computation on memory together with the addresses it reads, in order.
-/
namespace SyslogNg

abbrev Extent := ℤ × ℕ

structure Logged (α : Type*) where
  value : α
  reads : List Extent

namespace Logged

instance : Monad Logged where
  pure a := ⟨a, []⟩
  bind x f := ⟨(f x.value).value, x.reads ++ (f x.value).reads⟩

variable {α β : Type _}

@[simp] theorem value_pure (a : α) : (pure a : Logged α).value = a := rfl
@[simp] theorem reads_pure (a : α) : (pure a : Logged α).reads = [] := rfl
@[simp] theorem value_bind (x : Logged α) (f : α → Logged β) :
    (x >>= f).value = (f x.value).value := rfl
@[simp] theorem reads_bind (x : Logged α) (f : α → Logged β) :
    (x >>= f).reads = x.reads ++ (f x.value).reads := rfl

end Logged

/-- All of the extent is at an address of at least zero and below `size`. -/
def Extent.Inside (size : ℕ) (extent : Extent) : Prop := 0 ≤ extent.1 ∧ extent.1 + extent.2 ≤ size

instance (size : ℕ) (extent : Extent) : Decidable (extent.Inside size) :=
  inferInstanceAs (Decidable (_ ∧ _))

namespace Image

variable (m : Image) (ofs : ℤ)

def get (len : ℕ) : Logged (List UInt8) := ⟨m.slice ofs len, [(ofs, len)]⟩

def get8 : Logged UInt8 := ⟨m ofs, [(ofs, 1)]⟩

def get32 : Logged ℕ := ⟨m.read32 ofs, [(ofs, 4)]⟩

@[simp] theorem value_get (len : ℕ) : (m.get ofs len).value = m.slice ofs len := rfl
@[simp] theorem reads_get (len : ℕ) : (m.get ofs len).reads = [(ofs, len)] := rfl
@[simp] theorem value_get8 : (m.get8 ofs).value = m ofs := rfl
@[simp] theorem reads_get8 : (m.get8 ofs).reads = [(ofs, 1)] := rfl
@[simp] theorem value_get32 : (m.get32 ofs).value = m.read32 ofs := rfl
@[simp] theorem reads_get32 : (m.get32 ofs).reads = [(ofs, 4)] := rfl

end Image
end SyslogNg
