import Mathlib.Data.Finmap
import Mathlib.Data.Finset.Lattice.Fold
import Mathlib.Order.Lattice.Nat

/-!
# Object stores with explicit allocation

An object cache as a finite map from addresses to objects, with the
pointer operations of a C program over it: allocation (which may fail,
and may hand out any address not in use), a read and a write through a
pointer, and a free. A read or write through NULL, of an object that is
not allocated, or a free of one, is a `Fault`, so "the program does not
fault" says that it dereferences no failed allocation, reads no freed
object and frees nothing twice.

What is allocated is a multiset of addresses, `Mem.allocated`, which the
operations change by exactly one address at a time; an exact account of
who holds what is an equation between multisets.
-/

namespace Librefw

abbrev Addr := ℕ

/-- A C pointer: NULL or an address. -/
abbrev Ptr := Option Addr

/-- What makes a C program's behaviour undefined. -/
inductive Fault where
  | nullDeref
  | useAfterFree (a : Addr)
  | doubleFree (a : Addr)
  | outOfBounds (i : ℕ)
  | negativeIndex (i : ℤ)
  | badShift (n : ℕ)
  | stackOverflow
  deriving DecidableEq, Repr

/-- The width of `long`, and of `size_t`. -/
inductive LongSize where
  | long32 | long64
  deriving DecidableEq, Repr

def LongSize.bits : LongSize → ℕ
  | long32 => 32
  | long64 => 64

section Bind

variable {ε α β : Type}

@[simp] theorem ok_bind (a : α) (f : α → Except ε β) : (Except.ok a >>= f) = f a := rfl

@[simp] theorem error_bind (x : ε) (f : α → Except ε β) :
    ((Except.error x : Except ε α) >>= f) = Except.error x := rfl

@[simp] theorem pure_eq_ok (a : α) : (pure a : Except ε α) = Except.ok a := rfl

@[simp] theorem throw_eq_error (x : ε) : (throw x : Except ε α) = Except.error x := rfl

/-- A bind succeeds only where both of its halves do. -/
theorem bind_eq_ok {x : Except ε α} {f : α → Except ε β} {b : β} :
    (x >>= f) = Except.ok b ↔ ∃ a, x = Except.ok a ∧ f a = Except.ok b := by
  cases x <;> simp

/-- What follows a computation matters only where that succeeds. -/
theorem bind_congr_ok {x : Except ε α} {f g : α → Except ε β}
    (h : ∀ a, x = Except.ok a → f a = g a) : (x >>= f) = (x >>= g) := by
  cases x with
  | error err => rfl
  | ok a => exact h a rfl

/-- A computation ends in no error of a kind. -/
def Avoids (P : ε → Prop) (x : Except ε α) : Prop := ∀ err, x = .error err → ¬ P err

variable {P : ε → Prop} {x : Except ε α} {f : α → Except ε β}

theorem avoids_ok (a : α) : Avoids P (.ok a : Except ε α) := fun _ h => nomatch h

@[simp] theorem avoids_error {err : ε} : Avoids P (.error err : Except ε α) ↔ ¬ P err :=
  ⟨fun h => h err rfl, fun h _ heq => Except.error.inj heq ▸ h⟩

/-- A bind avoids what both of its halves avoid. -/
theorem Avoids.bind (hx : Avoids P x) (hf : ∀ a, x = .ok a → Avoids P (f a)) :
    Avoids P (x >>= f) := by
  cases hc : x with
  | error err =>
    rw [error_bind, avoids_error]
    exact hx err hc
  | ok a =>
    rw [ok_bind]
    exact hf a hc

end Bind

/-- The fault is one of the operations of an object cache. -/
def Fault.OfCache : Fault → Prop
  | .nullDeref | .useAfterFree _ | .doubleFree _ => True
  | .outOfBounds _ | .negativeIndex _ | .badShift _ | .stackOverflow => False

/-- A choice of addresses for allocation requests: what the `n`-th request
gets while the addresses `s` are in use, NULL where the request fails. A size
that is computed for a request is a `size_t` of its width. -/
structure Allocator where
  zalloc : ℕ → Finset Addr → Ptr
  fresh : ∀ {n s a}, zalloc n s = some a → a ∉ s
  size_t : LongSize := .long64

/-- No request fails. -/
def Allocator.Total (A : Allocator) : Prop := ∀ n s, ∃ a, A.zalloc n s = some a

/-- An allocator no request of which fails. -/
structure Supply extends Allocator where
  total : ∀ n s, ∃ a, zalloc n s = some a

/-- A supply that hands out one address after another. -/
def Supply.next : Supply where
  zalloc n s := if n ∈ s then some (s.sup id + 1) else some n
  fresh := by
    intro n s a h ha
    split at h
    · obtain rfl := Option.some.inj h
      have hle : s.sup id + 1 ≤ s.sup id := Finset.le_sup (f := id) ha
      exact absurd hle (Nat.not_succ_le_self _)
    · next hn => exact hn (Option.some.inj h ▸ ha)
  total := by
    intro n s
    by_cases hn : n ∈ s <;> simp [hn]

/-- The supply that answers as an allocator does as long as that succeeds. -/
def Allocator.complete (A : Allocator) : Supply where
  zalloc n s := A.zalloc n s <|> Supply.next.zalloc n s
  fresh := by
    intro n s a h
    cases hA : A.zalloc n s with
    | none =>
      rw [hA] at h
      exact Supply.next.fresh h
    | some b =>
      rw [hA] at h
      obtain rfl := Option.some.inj h
      exact A.fresh hA
  size_t := A.size_t
  total := by
    intro n s
    cases hA : A.zalloc n s with
    | none => exact Supply.next.total n s
    | some b => exact ⟨b, rfl⟩

/-- What one allocator grants the other does, at the same address. -/
def Allocator.Le (A B : Allocator) : Prop :=
  ∀ n s a, A.zalloc n s = some a → B.zalloc n s = some a

theorem Allocator.Le.refl (A : Allocator) : A.Le A := fun _ _ _ h => h

theorem Allocator.le_complete (A : Allocator) : A.Le A.complete.toAllocator := by
  intro n s a h
  simp [complete, h]

/-- An object cache: the objects allocated, and how many requests it has
seen. -/
structure Mem (ν : Type) where
  objs : Finmap (fun _ : Addr => ν)
  tick : ℕ

namespace Mem

variable {ν : Type} {m : Mem ν} {a b : Addr} {v w : ν}

/-- The object at an address, if one is allocated there. -/
def lookup (m : Mem ν) (a : Addr) : Option ν := m.objs.lookup a

instance : Membership Addr (Mem ν) := ⟨fun m a => a ∈ m.objs⟩

instance (a : Addr) (m : Mem ν) : Decidable (a ∈ m) :=
  inferInstanceAs (Decidable (a ∈ m.objs))

/-- The addresses in use. -/
def allocated (m : Mem ν) : Multiset Addr := m.objs.keys.val

/-- A cache with nothing allocated. -/
def empty : Mem ν := ⟨∅, 0⟩

theorem mem_iff_lookup : a ∈ m ↔ ∃ v, m.lookup a = some v := Finmap.mem_iff

theorem mem_of_lookup (h : m.lookup a = some v) : a ∈ m := mem_iff_lookup.2 ⟨v, h⟩

theorem lookup_eq_none : m.lookup a = none ↔ a ∉ m := Finmap.lookup_eq_none

@[simp] theorem mem_allocated : a ∈ m.allocated ↔ a ∈ m := Finmap.mem_keys

theorem nodup_allocated (m : Mem ν) : m.allocated.Nodup := m.objs.keys.nodup

@[simp] theorem allocated_empty : (empty : Mem ν).allocated = 0 := rfl

/-! ## Writing -/

/-- The cache with the object at `a` replaced, or added. -/
def set (m : Mem ν) (a : Addr) (v : ν) : Mem ν := { m with objs := m.objs.insert a v }

@[simp] theorem lookup_set_self (m : Mem ν) (a : Addr) (v : ν) : (m.set a v).lookup a = some v :=
  Finmap.lookup_insert _

theorem lookup_set_ne (h : b ≠ a) : (m.set a v).lookup b = m.lookup b :=
  Finmap.lookup_insert_of_ne _ h

@[simp] theorem mem_set : b ∈ m.set a v ↔ b = a ∨ b ∈ m := Finmap.mem_insert

theorem allocated_set_of_mem (h : a ∈ m) : (m.set a v).allocated = m.allocated := by
  have hk : (m.set a v).objs.keys = m.objs.keys := by
    ext b
    rw [Finmap.mem_keys, Finmap.mem_keys]
    exact ⟨fun hb => (mem_set.1 hb).elim (· ▸ h) id, fun hb => mem_set.2 (Or.inr hb)⟩
  rw [allocated, hk, allocated]

theorem allocated_set_of_notMem (h : a ∉ m) : (m.set a v).allocated = a ::ₘ m.allocated := by
  have hk : (m.set a v).objs.keys = Finset.cons a m.objs.keys (mt Finmap.mem_keys.1 h) := by
    ext b
    rw [Finmap.mem_keys, Finset.mem_cons, Finmap.mem_keys]
    exact mem_set
  rw [allocated, hk, Finset.cons_val, allocated]

/-- `*p = v`. -/
def store (m : Mem ν) (p : Ptr) (v : ν) : Except Fault (Mem ν) :=
  match p with
  | none => throw .nullDeref
  | some a => if a ∈ m then pure (m.set a v) else throw (.useAfterFree a)

theorem store_of_mem (h : a ∈ m) : m.store (some a) v = .ok (m.set a v) := by
  simp [store, h]

/-! ## Reading -/

/-- `*p`. -/
def load (m : Mem ν) (p : Ptr) : Except Fault ν :=
  match p with
  | none => throw .nullDeref
  | some a =>
    match m.lookup a with
    | none => throw (.useAfterFree a)
    | some v => pure v

theorem load_of_lookup (h : m.lookup a = some v) : m.load (some a) = .ok v := by
  simp [load, h]

/-- `p->field = ...`: the object at `p` with some of its fields changed. -/
def modify (m : Mem ν) (p : Ptr) (f : ν → ν) : Except Fault (Mem ν) := do
  let v ← m.load p
  m.store p (f v)

theorem modify_of_lookup {f : ν → ν} (h : m.lookup a = some v) :
    m.modify (some a) f = .ok (m.set a (f v)) := by
  simp [modify, load_of_lookup h, store_of_mem (mem_of_lookup h)]

/-! ## Allocating -/

/-- A zeroed object from the cache, or NULL. -/
def zalloc (A : Allocator) (m : Mem ν) (zero : ν) : Ptr × Mem ν :=
  match A.zalloc m.tick m.objs.keys with
  | none => (none, { m with tick := m.tick + 1 })
  | some a => (some a, { (m.set a zero) with tick := m.tick + 1 })

/-- What an allocation that succeeds does: it adds one object, at an address
not in use. -/
structure Extends (m : Mem ν) (a : Addr) (v : ν) (m' : Mem ν) : Prop where
  fresh : a ∉ m
  lookup_self : m'.lookup a = some v
  lookup_ne : ∀ b, b ≠ a → m'.lookup b = m.lookup b
  allocated : m'.allocated = a ::ₘ m.allocated

theorem zalloc_of_some {A : Allocator} (h : A.zalloc m.tick m.objs.keys = some a) :
    ∃ m', m.zalloc A v = (some a, m') ∧ m.Extends a v m' := by
  have hfresh : a ∉ m := fun ha => A.fresh h (Finmap.mem_keys.2 ha)
  exact ⟨{ (m.set a v) with tick := m.tick + 1 }, by simp [zalloc, h], hfresh,
    lookup_set_self m a v, fun b hb => lookup_set_ne hb, allocated_set_of_notMem hfresh⟩

/-- **An allocation from a supply** succeeds. -/
theorem zalloc_supply (A : Supply) (m : Mem ν) (v : ν) :
    ∃ a m', m.zalloc A.toAllocator v = (some a, m') ∧ m.Extends a v m' := by
  obtain ⟨a, h⟩ := A.total m.tick m.objs.keys
  obtain ⟨m', h', hext⟩ := zalloc_of_some (v := v) h
  exact ⟨a, m', h', hext⟩

/-- An allocation succeeds, or leaves everything as it was. -/
theorem zalloc_cases (A : Allocator) (m : Mem ν) (v : ν) :
    (∃ a m', m.zalloc A v = (some a, m') ∧ m.Extends a v m') ∨
      m.zalloc A v = (none, { m with tick := m.tick + 1 }) := by
  cases hA : A.zalloc m.tick m.objs.keys with
  | none => exact Or.inr (by simp [zalloc, hA])
  | some a =>
    obtain ⟨m', h, hext⟩ := zalloc_of_some (v := v) hA
    exact Or.inl ⟨a, m', h, hext⟩

theorem zalloc_of_le {A B : Allocator} {m' : Mem ν} (hle : A.Le B)
    (h : m.zalloc A v = (some a, m')) : m.zalloc B v = (some a, m') := by
  unfold zalloc at h ⊢
  cases hA : A.zalloc m.tick m.objs.keys with
  | none =>
    rw [hA] at h
    cases h
  | some b =>
    rw [hle _ _ _ hA]
    rw [hA] at h
    exact h

/-- An allocation that succeeds goes as from the supply that completes the
allocator. -/
theorem zalloc_complete {A : Allocator} {m' : Mem ν} (h : m.zalloc A v = (some a, m')) :
    m.zalloc A.complete.toAllocator v = (some a, m') :=
  zalloc_of_le A.le_complete h

/-- An allocation that fails changes nothing. -/
theorem objs_of_zalloc_none {A : Allocator} {m' : Mem ν} (h : m.zalloc A v = (none, m')) :
    m'.objs = m.objs := by
  unfold zalloc at h
  split at h
  · exact (Prod.mk.inj h).2 ▸ rfl
  · cases (Prod.mk.inj h).1

/-- Whatever an allocation does, it leaves what is allocated as it is. -/
theorem lookup_zalloc {A : Allocator} (hb : b ∈ m) :
    (m.zalloc A v).2.lookup b = m.lookup b := by
  unfold zalloc
  cases hA : A.zalloc m.tick m.objs.keys with
  | none => rfl
  | some c =>
    have hne : b ≠ c := by
      rintro rfl
      exact A.fresh hA (Finmap.mem_keys.2 hb)
    exact lookup_set_ne hne

theorem allocated_le_zalloc (A : Allocator) (m : Mem ν) (v : ν) :
    m.allocated ≤ (m.zalloc A v).2.allocated := by
  unfold zalloc
  cases hA : A.zalloc m.tick m.objs.keys with
  | none => exact le_refl _
  | some c =>
    have hfresh : c ∉ m := fun hc => A.fresh hA (Finmap.mem_keys.2 hc)
    have hall : (m.set c v).allocated = c ::ₘ m.allocated := allocated_set_of_notMem hfresh
    exact (Multiset.le_cons_self _ _).trans_eq hall.symm

namespace Extends

variable {m' : Mem ν}

theorem mem_self (h : m.Extends a v m') : a ∈ m' := mem_of_lookup h.lookup_self

theorem ne_of_mem (h : m.Extends a v m') (hb : b ∈ m) : b ≠ a := fun e => h.fresh (e ▸ hb)

/-- What was allocated stays as it was. -/
theorem lookup_of_mem (h : m.Extends a v m') (hb : b ∈ m) : m'.lookup b = m.lookup b :=
  h.lookup_ne b (h.ne_of_mem hb)

theorem mem_of_mem (h : m.Extends a v m') (hb : b ∈ m) : b ∈ m' := by
  obtain ⟨w, hw⟩ := mem_iff_lookup.1 hb
  exact mem_of_lookup ((h.lookup_of_mem hb).trans hw)

end Extends

/-! ## Freeing -/

/-- The cache without the object at `a`. -/
def erase (m : Mem ν) (a : Addr) : Mem ν := { m with objs := m.objs.erase a }

theorem lookup_erase_ne (h : b ≠ a) : (m.erase a).lookup b = m.lookup b :=
  Finmap.lookup_erase_ne h

@[simp] theorem mem_erase : b ∈ m.erase a ↔ b ≠ a ∧ b ∈ m := Finmap.mem_erase

theorem allocated_erase (m : Mem ν) (a : Addr) : (m.erase a).allocated = m.allocated.erase a := by
  rw [allocated, erase, Finmap.keys_erase, Finset.erase_val, allocated]

/-- Handing an object back to the cache. -/
def free (m : Mem ν) (a : Addr) : Except Fault (Mem ν) :=
  if a ∈ m then pure (m.erase a) else throw (.doubleFree a)

theorem free_of_mem (h : a ∈ m) : m.free a = .ok (m.erase a) := by
  simp [free, h]

/-! ## Faults -/

section Avoids

variable {P : Fault → Prop}

/-- The operations of a cache end in no other fault than theirs. -/
theorem load_avoids (hP : ∀ f, P f → ¬ f.OfCache) (m : Mem ν) (p : Ptr) : Avoids P (m.load p) := by
  intro f hf hPf
  refine hP f hPf ?_
  unfold load at hf
  split at hf
  · exact Except.error.inj hf ▸ trivial
  · split at hf
    · exact Except.error.inj hf ▸ trivial
    · cases hf

theorem store_avoids (hP : ∀ f, P f → ¬ f.OfCache) (m : Mem ν) (p : Ptr) (v : ν) :
    Avoids P (m.store p v) := by
  intro f hf hPf
  refine hP f hPf ?_
  unfold store at hf
  split at hf
  · exact Except.error.inj hf ▸ trivial
  · split at hf
    · cases hf
    · exact Except.error.inj hf ▸ trivial

theorem modify_avoids (hP : ∀ f, P f → ¬ f.OfCache) (m : Mem ν) (p : Ptr) (g : ν → ν) :
    Avoids P (m.modify p g) :=
  (load_avoids hP m p).bind fun _ _ => store_avoids hP m p _

theorem free_avoids (hP : ∀ f, P f → ¬ f.OfCache) (m : Mem ν) (a : Addr) :
    Avoids P (m.free a) := by
  intro f hf hPf
  refine hP f hPf ?_
  unfold free at hf
  split at hf
  · cases hf
  · exact Except.error.inj hf ▸ trivial

end Avoids

end Mem

end Librefw
