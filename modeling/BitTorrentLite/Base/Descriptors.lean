import Mathlib.Data.Multiset.Basic
import Mathlib.Data.Multiset.MapFold
import Mathlib.Logic.Function.Basic
import Mathlib.Tactic

/-! # Descriptors

    The descriptor table of a process: a number refers to an object until it is
    closed, and a new object gets a number that is free, so that numbers are
    used again.

    Who was given a number keeps it, with nothing to tell whether it still
    refers to the same object. A `Handle` is a number with the object it was
    given for, and `Accurate` says that the numbers held are right, but for
    those that may have been closed by somebody else.
-/

namespace Descriptors

variable {α : Type*}

/-- What each number refers to. -/
abbrev Table (α : Type*) := ℕ → Option α

/-- A number, and the object it was given for. -/
structure Handle (α : Type*) where
  fd : ℕ
  obj : α
  deriving DecidableEq

/-- The table with a new object. -/
def Table.put (t : Table α) (fd : ℕ) (obj : α) : Table α := Function.update t fd (some obj)

/-- The table after a `close`, which is an error if the number is free. -/
def Table.close (t : Table α) (fd : ℕ) : Table α := Function.update t fd none

/-- Each number held refers to the object it was given for, or is among those
    that may have been closed. -/
def Accurate (t : Table α) (dead : ℕ → Prop) (held : Multiset (Handle α)) : Prop :=
  ∀ h ∈ held, t h.fd = some h.obj ∨ dead h.fd

variable {t : Table α} {dead dead' : ℕ → Prop} {held held' : Multiset (Handle α)} {h : Handle α}
  {obj : α} {fd m : ℕ}

@[simp] theorem Table.put_self : t.put fd obj fd = some obj := Function.update_self ..

@[simp] theorem Table.put_ne (h : m ≠ fd) : t.put fd obj m = t m := Function.update_of_ne h ..

@[simp] theorem Table.close_self : t.close fd fd = none := Function.update_self ..

@[simp] theorem Table.close_ne (h : m ≠ fd) : t.close fd m = t m := Function.update_of_ne h ..

theorem Accurate.mono (ha : Accurate t dead held) (hheld : held' ⊆ held)
    (hdead : ∀ fd, dead fd → dead' fd) : Accurate t dead' held' :=
  fun h hh => (ha h (hheld hh)).imp_right (hdead h.fd)

/-- **Opening**: a new object does not take over a number in use. -/
theorem Accurate.put (ha : Accurate t dead held) (hfree : t fd = none) :
    Accurate (t.put fd obj) dead held := by
  intro h hh
  rcases ha h hh with hget | hdead
  · have hne : h.fd ≠ fd := by
      intro heq
      rw [heq, hfree] at hget
      cases hget
    left
    rw [Table.put_ne hne, hget]
  · exact .inr hdead

/-- Who opened the object is given the right number. -/
theorem Accurate.put_cons (ha : Accurate t dead held) (hfree : t fd = none) :
    Accurate (t.put fd obj) dead (⟨fd, obj⟩ ::ₘ held) := by
  intro h hh
  rcases Multiset.mem_cons.mp hh with rfl | hold
  · exact .inl Table.put_self
  · exact ha.put hfree h hold

/-- **Closing by a holder**: the others keep their objects, or share a number
    that was closed before. -/
theorem Accurate.close (ha : Accurate t dead (h ::ₘ held))
    (hdistinct : ((h ::ₘ held).map Handle.obj).Nodup) : Accurate (t.close h.fd) dead held := by
  intro g hg
  rcases ha g (Multiset.mem_cons_of_mem hg) with hget | hdead
  · by_cases heq : g.fd = h.fd
    · rcases ha h (Multiset.mem_cons_self ..) with hown | hdead
      -- two objects under one number
      · have hobj : g.obj = h.obj := by
          rw [heq, hown] at hget
          exact (Option.some.inj hget).symm
        rw [Multiset.map_cons, Multiset.nodup_cons] at hdistinct
        exact absurd (Multiset.mem_map.mpr ⟨g, hg, hobj⟩) hdistinct.1
      · exact .inr (heq ▸ hdead)
    · left
      rw [Table.close_ne heq, hget]
  · exact .inr hdead

/-- **Closing by somebody else**: what nobody holds, or may have been closed
    before. -/
theorem Accurate.close_other (ha : Accurate t dead held)
    (hfd : (∀ h ∈ held, t fd ≠ some h.obj) ∨ dead fd) : Accurate (t.close fd) dead held := by
  intro h hh
  rcases ha h hh with hget | hdead
  · by_cases heq : h.fd = fd
    · rcases hfd with hnone | hdead
      · exact absurd (heq ▸ hget) (hnone h hh)
      · exact .inr (heq ▸ hdead)
    · left
      rw [Table.close_ne heq, hget]
  · exact .inr hdead

end Descriptors
