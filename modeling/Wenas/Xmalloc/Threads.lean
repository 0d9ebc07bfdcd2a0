import Wenas.Xmalloc.Largest
import Wenas.Lib.Locks

/-!
# Threads on a page

`malloc` and `free` on one page by any number of threads. Each try-lock is a step, each unlock is a step, and what a
thread does between two of them is a step, except for the loop over a recycle pool, which takes a step for each turn.
Which thread moves next is decided from outside.
-/
namespace Wenas.Xmalloc
open Wenas.Machine Wenas.Locks

inductive Lock where
  /-- `page->lock` -/
  | page
  /-- `page->recycle_pool[i].lock` -/
  | pool (i : Fin 3)
  deriving DecidableEq

/-- Where a thread stands in `malloc` or `free`. -/
inductive Place where
  | outside
  /-- `__atom_try_lock` in `malloc` -/
  | mallocs (n : Nat)
  /-- the pointer is split off the current one -/
  | splits (n : Nat)
  /-- the first `__atom_try_lock` in `free` -/
  | frees (a : Nat)
  /-- `free_pointer` of the own block -/
  | releases (a : Nat)
  /-- `__atom_unlock` of the page -/
  | unlocks
  /-- `__atom_try_lock` of a recycle pool -/
  | seeks (i : Fin 3) (a : Nat)
  /-- the own block becomes the head of the pool -/
  | parks (i : Fin 3) (a : Nat)
  /-- the second `__atom_try_lock` of the page in `free` -/
  | retries (i : Fin 3)
  /-- the condition of the loop over the pool -/
  | drains (i : Fin 3)
  /-- `__atom_unlock` of the pool -/
  | leaves (i : Fin 3)
  deriving DecidableEq

namespace Place

def locks : Place → List Lock
  | .splits _ | .releases _ | .unlocks => [.page]
  | .parks i _ | .retries i | .leaves i => [.pool i]
  | .drains i => [.page, .pool i]
  | .outside | .mallocs _ | .frees _ | .seeks _ _ => []

/-- The address that the thread was asked to free, while its block is neither free nor parked. -/
def freeing : Place → Option Nat
  | .frees a | .releases a | .seeks _ a | .parks _ a => some a
  | _ => none

/-- The size that the thread was asked for, while it has no block. -/
def asking : Place → Option Nat
  | .mallocs n | .splits n => some n
  | _ => none

/-- The thread frees and asks for nothing that it did not before. -/
structure GoesOn (p p' : Place) : Prop where
  freeing : ∀ a, p'.freeing = some a → p.freeing = some a
  asking : ∀ n, p'.asking = some n → p.asking = some n

theorem GoesOn.same {p p' : Place} (hfreeing : p'.freeing = p.freeing) (hasking : p'.asking = p.asking) : p.GoesOn p' :=
  ⟨fun _ ha => hfreeing ▸ ha, fun _ hn => hasking ▸ hn⟩

theorem GoesOn.ends {p p' : Place} (hfreeing : p'.freeing = none) (hasking : p'.asking = none) : p.GoesOn p' :=
  ⟨fun _ ha => absurd (hfreeing.symm.trans ha) (by simp), fun _ hn => absurd (hasking.symm.trans hn) (by simp)⟩

/-- The steps to the end of the call for a thread that has a lock, when the pools have these lengths. -/
def left (len : Fin 3 → Nat) : Place → Nat
  | .splits _ | .releases _ => 2
  | .unlocks | .leaves _ => 1
  | .parks i _ => len i + 5
  | .retries i => len i + 3
  | .drains i => len i + 2
  | .outside | .mallocs _ | .frees _ | .seeks _ _ => 0

theorem left_congr {len len' : Fin 3 → Nat} {p : Place} (h : ∀ i, .pool i ∈ p.locks → len' i = len i) :
    p.left len' = p.left len := by
  cases p <;> simp_all [left, locks]

theorem left_pos {len : Fin 3 → Nat} {p : Place} (h : p.locks ≠ []) : 0 < p.left len := by
  cases p <;> simp_all [left, locks]

theorem left_le {len : Fin 3 → Nat} {p : Place} {size : Nat} (h : ∀ i, len i ≤ size) : p.left len ≤ size + 5 := by
  cases p with
  | parks i _ | retries i | drains i =>
    have hi := h i
    simp only [left]
    omega
  | _ =>
    simp only [left]
    omega

end Place

structure Threads (τ : Type) where
  heap : Heap
  taken : Lock → Bool
  place : τ → Place

/-- A thread calls `malloc` or `free`, writes to memory, or goes on with its call. -/
inductive Act where
  | malloc (n : Nat)
  | free (a : Nat)
  | store (p v : Nat)
  | go

namespace Threads

variable [Build] {τ : Type} [DecidableEq τ]

/-- No thread has called anything yet. -/
def start (h : Heap) : Threads τ := ⟨h, fun _ => false, fun _ => .outside⟩

def lock (t : Threads τ) (l : Lock) (x : τ) (p : Place) : Threads τ :=
  { t with taken := Function.update t.taken l true, place := Function.update t.place x p }

def unlock (t : Threads τ) (l : Lock) (x : τ) (p : Place) : Threads τ :=
  { t with taken := Function.update t.taken l false, place := Function.update t.place x p }

def moveTo (t : Threads τ) (x : τ) (p : Place) : Threads τ := { t with place := Function.update t.place x p }

def work (t : Threads τ) (h : Heap) (x : τ) (p : Place) : Threads τ :=
  { t with heap := h, place := Function.update t.place x p }

section
omit [Build]
variable (t : Threads τ) (l : Lock) (x : τ) (p : Place)

@[simp] theorem lock_place : (t.lock l x p).place x = p := Function.update_self ..

@[simp] theorem unlock_place : (t.unlock l x p).place x = p := Function.update_self ..

@[simp] theorem moveTo_place : (t.moveTo x p).place x = p := Function.update_self ..

@[simp] theorem work_place (h : Heap) : (t.work h x p).place x = p := Function.update_self ..

end

def go (t : Threads τ) (x : τ) : Threads τ :=
  match t.place x with
  | .outside => t
  -- `continue`: the thread goes on to the other pages
  | .mallocs n => if t.taken .page then t.moveTo x .outside else t.lock .page x (.splits n)
  | .splits n => t.work (t.heap.step (.malloc n)) x .unlocks
  | .frees a => if t.taken .page then t.moveTo x (.seeks 0 a) else t.lock .page x (.releases a)
  | .releases a => t.work (t.heap.step (.free a)) x .unlocks
  | .unlocks => t.unlock .page x .outside
  | .seeks i a => if t.taken (.pool i) then t.moveTo x (.seeks (i + 1) a) else t.lock (.pool i) x (.parks i a)
  | .parks i a => t.work (t.heap.step (.park i a)) x (.retries i)
  | .retries i => if t.taken .page then t.moveTo x (.leaves i) else t.lock .page x (.drains i)
  | .drains i =>
    if t.heap.recycle i = 0 then t.unlock .page x (.leaves i) else t.work (t.heap.drain 1 i) x (.drains i)
  | .leaves i => t.unlock (.pool i) x .outside

def step (t : Threads τ) : τ × Act → Threads τ
  | (x, .malloc n) => t.moveTo x (.mallocs n)
  | (x, .free a) => t.moveTo x (.frees a)
  | (_, .store p v) => { t with heap := t.heap.step (.store p v) }
  | (x, .go) => t.go x

/-- A thread calls from outside, asks for a size that does not overflow, frees what the program holds and no thread is
freeing, and writes to the same. -/
def Legal (t : Threads τ) : τ × Act → Prop
  | (x, .malloc n) => t.place x = .outside ∧ Rounds n ∧ Reserves n
  | (x, .free a) => t.place x = .outside ∧ a ∈ t.heap.live.map Prod.fst ∧ ∀ y, (t.place y).freeing ≠ some a
  | (x, .store p _) => t.place x = .outside ∧
      ∃ e ∈ t.heap.live, (e.1 - workPointerSize + 16 ≤ p ∧ p < e.1 + e.2) ∧ ∀ y, (t.place y).freeing ≠ some e.1
  | (_, .go) => True

instance [Fintype τ] (t : Threads τ) : (a : τ × Act) → Decidable (t.Legal a)
  | (_, .malloc _) => inferInstanceAs (Decidable (_ ∧ _ ∧ _))
  | (_, .free _) => inferInstanceAs (Decidable (_ ∧ _ ∧ _))
  | (_, .store _ _) => inferInstanceAs (Decidable (_ ∧ ∃ e ∈ _, _ ∧ _))
  | (_, .go) => .isTrue trivial

/-! ### What the threads have claimed -/

/-- The addresses that threads are freeing are held by the program, and each is freed by one thread. -/
structure Claims (live : List (Nat × Nat)) (place : τ → Place) : Prop where
  held : ∀ x a, (place x).freeing = some a → a ∈ live.map Prod.fst
  unique : ∀ x y a, (place x).freeing = some a → (place y).freeing = some a → x = y

/-- The lengths of the recycle pools. -/
def lengths (parked : Fin 3 → List Blk) (i : Fin 3) : Nat := (parked i).length

variable {t : Threads τ} {live live' : List (Nat × Nat)} {place : τ → Place} {x y : τ} {p : Place} {a : Nat}
  {parked : Fin 3 → List Blk}

namespace Claims

omit [Build] [DecidableEq τ] in
theorem grow (h : Claims live place) (hlive : ∀ e ∈ live, e ∈ live') : Claims live' place := by
  refine ⟨fun x a hx => ?_, h.unique⟩
  obtain ⟨e, he, rfl⟩ := List.mem_map.mp (h.held x a hx)
  exact List.mem_map_of_mem (hlive e he)

omit [Build] in
/-- A thread that goes on frees what it was freeing, or nothing. -/
theorem keep (h : Claims live place) (hp : ∀ a, p.freeing = some a → (place x).freeing = some a) :
    Claims live (Function.update place x p) := by
  have hbefore : ∀ {y a}, (Function.update place x p y).freeing = some a → (place y).freeing = some a := by
    intro y a hy
    by_cases hyx : y = x
    · subst hyx
      rw [Function.update_self] at hy
      exact hp a hy
    · rwa [Function.update_of_ne hyx] at hy
  exact ⟨fun y a hy => h.held y a (hbefore hy), fun y z a hy hz => h.unique y z a (hbefore hy) (hbefore hz)⟩

omit [Build] in
theorem claim (h : Claims live place) (ha : a ∈ live.map Prod.fst) (hfree : ∀ y, (place y).freeing ≠ some a) :
    Claims live (Function.update place x (.frees a)) := by
  have hcases : ∀ {y b}, (Function.update place x (.frees a) y).freeing = some b →
      (y = x ∧ b = a) ∨ (place y).freeing = some b := by
    intro y b hy
    by_cases hyx : y = x
    · subst hyx
      rw [Function.update_self, Place.freeing, Option.some.injEq] at hy
      exact .inl ⟨rfl, hy.symm⟩
    · rw [Function.update_of_ne hyx] at hy
      exact .inr hy
  constructor
  · intro y b hy
    obtain ⟨-, rfl⟩ | hy := hcases hy
    · exact ha
    · exact h.held y b hy
  · intro y z b hy hz
    obtain ⟨hyx, hba⟩ | hyb := hcases hy
    · obtain ⟨hzx, -⟩ | hzb := hcases hz
      · rw [hyx, hzx]
      · exact absurd (hba ▸ hzb) (hfree z)
    · obtain ⟨-, hba⟩ | hzb := hcases hz
      · exact absurd (hba ▸ hyb) (hfree y)
      · exact h.unique y z b hyb hzb

omit [Build] in
/-- The block of the thread is freed or parked, and those of the others stay. -/
theorem drop (h : Claims live place) (hx : (place x).freeing = some a) (hp : p.freeing = none) :
    Claims (live.filter fun e => e.1 ≠ a) (Function.update place x p) := by
  have hkept : Claims live (Function.update place x p) := h.keep fun b hb => by rw [hp] at hb; cases hb
  refine ⟨fun y b hy => ?_, hkept.unique⟩
  obtain ⟨e, he, rfl⟩ := List.mem_map.mp (hkept.held y b hy)
  have hyx : y ≠ x := by
    intro heq
    subst heq
    rw [Function.update_self, hp] at hy
    cases hy
  have hne : e.1 ≠ a := by
    intro heq
    rw [Function.update_of_ne hyx, heq] at hy
    exact hyx (h.unique y x a hy hx)
  exact List.mem_map_of_mem (List.mem_filter.mpr ⟨he, decide_eq_true hne⟩)

end Claims

/-! ### What a step keeps -/

/-- Between two steps the page is sound, the claims are kept, the sizes fit and the locks are exclusive. -/
structure Kept (t : Threads τ) (parked : Fin 3 → List Blk) : Prop where
  sound : ∃ bs next held, t.heap.Sound bs next held parked
  claims : Claims t.heap.live t.place
  fits : ∀ x n, (t.place x).asking = some n → Rounds n ∧ Reserves n
  locks : Exclusive Place.locks t.place t.taken

theorem fits_update (h : ∀ x n, (place x).asking = some n → Rounds n ∧ Reserves n)
    (hp : ∀ n, p.asking = some n → Rounds n ∧ Reserves n) (y : τ) (n : Nat)
    (hy : (Function.update place x p y).asking = some n) : Rounds n ∧ Reserves n := by
  by_cases hyx : y = x
  · subst hyx
    rw [Function.update_self] at hy
    exact hp n hy
  · rw [Function.update_of_ne hyx] at hy
    exact h y n hy

namespace Kept

omit [DecidableEq τ] in
theorem start {h : Heap} (hbegins : h.Begins) : Kept (start h : Threads τ) fun _ => [] := by
  obtain ⟨bs, next, held, hs⟩ := hbegins.sound
  refine ⟨⟨bs, next, held, hs⟩, ⟨?_, ?_⟩, ?_, Exclusive.start (fun _ => rfl) fun _ => rfl⟩
  · intro x a hx
    cases hx
  · intro x y a hx
    cases hx
  · intro x n hx
    cases hx

theorem moveTo (h : Kept t parked) (hp : (t.place x).GoesOn p) (hlocks : p.locks = (t.place x).locks) :
    Kept (t.moveTo x p) parked :=
  ⟨h.sound, h.claims.keep hp.freeing, fits_update h.fits fun n hn => h.fits x n (hp.asking n hn),
    h.locks.stay fun l => by rw [hlocks]⟩

theorem lock {l : Lock} (h : Kept t parked) (hp : (t.place x).GoesOn p) (hfree : t.taken l = false)
    (hlocks : p.locks = l :: (t.place x).locks) : Kept (t.lock l x p) parked :=
  ⟨h.sound, h.claims.keep hp.freeing, fits_update h.fits fun n hn => h.fits x n (hp.asking n hn),
    h.locks.take hfree fun m => by rw [hlocks, List.mem_cons]⟩

theorem unlock {l : Lock} (h : Kept t parked) (hp : (t.place x).GoesOn p) (hheld : l ∈ (t.place x).locks)
    (hlocks : ∀ m, m ∈ p.locks ↔ m ∈ (t.place x).locks ∧ m ≠ l) : Kept (t.unlock l x p) parked :=
  ⟨h.sound, h.claims.keep hp.freeing, fits_update h.fits fun n hn => h.fits x n (hp.asking n hn),
    h.locks.give hheld hlocks⟩

theorem work {heap : Heap} {bs held : List Blk} {next : Nat → Nat} {parked' : Fin 3 → List Blk} (h : Kept t parked)
    (hs : heap.Sound bs next held parked') (hclaims : Claims heap.live (Function.update t.place x p))
    (hasking : p.asking = none) (hlocks : p.locks = (t.place x).locks) : Kept (t.work heap x p) parked' :=
  ⟨⟨bs, next, held, hs⟩, hclaims, fits_update h.fits fun n hn => absurd (hasking.symm.trans hn) (by simp),
    h.locks.stay fun l => by rw [hlocks]⟩

omit [DecidableEq τ] in
/-- A pool that is not empty has a first block. -/
theorem parked_ne (h : Kept t parked) {i : Fin 3} (hi : t.heap.recycle i ≠ 0) : parked i ≠ [] := by
  obtain ⟨bs, next, held, hs⟩ := h.sound
  intro hnil
  have hthread := hs.threads i
  rw [hnil] at hthread
  exact hi hthread

end Kept

omit [DecidableEq τ] in
theorem mem_malloc {h : Heap} {n : Nat} {e : Nat × Nat} (he : e ∈ h.live) : e ∈ (h.step (.malloc n)).live := by
  rw [Heap.step]
  obtain ⟨pg, _ | a⟩ := h.page.malloc n
  · exact he
  · exact List.mem_cons_of_mem _ he

/-- A step of a call at `p` that leads to `p'` keeps the invariant, and the pools that the thread has not locked. A
thread that has a lock gets nearer to the end of its call. -/
structure Goes (t' : Threads τ) (parked' parked : Fin 3 → List Blk) (p p' : Place) : Prop where
  kept : Kept t' parked'
  frame : ∀ i, .pool i ∉ p.locks → parked' i = parked i
  busy : p.locks ≠ [] → p'.locks ≠ [] ∨ p' = .outside
  nearer : p.locks ≠ [] → p'.left (lengths parked') < p.left (lengths parked)

namespace Kept

/-- A try-lock, with the places to which it leads when the lock is taken and when it is free. -/
theorem tryLock {l : Lock} {p₁ p₂ : Place} (h : Kept t parked) (hx : t.place x = p) (hon₁ : p.GoesOn p₁)
    (hon₂ : p.GoesOn p₂) (hlocks₁ : p₁.locks = p.locks) (hlocks₂ : p₂.locks = l :: p.locks)
    (hnearer : p.locks ≠ [] → ∀ len, p₁.left len < p.left len ∧ p₂.left len < p.left len) :
    ∃ parked', Goes (if t.taken l then t.moveTo x p₁ else t.lock l x p₂) parked' parked p
      ((if t.taken l then t.moveTo x p₁ else t.lock l x p₂).place x) := by
  subst hx
  refine ⟨parked, ?_, fun _ _ => rfl, fun hne => .inl ?_, fun hne => ?_⟩
  · split
    · exact h.moveTo hon₁ hlocks₁
    · next hfree => exact h.lock hon₂ (by simpa using hfree) hlocks₂
  · split
    · rw [moveTo_place, hlocks₁]
      exact hne
    · rw [lock_place, hlocks₂]
      exact List.cons_ne_nil _ _
  · split
    · rw [moveTo_place]
      exact (hnearer hne _).1
    · rw [lock_place]
      exact (hnearer hne _).2

theorem go (h : Kept t parked) (x : τ) :
    ∃ parked', Goes (t.go x) parked' parked (t.place x) ((t.go x).place x) := by
  obtain ⟨bs, next, held, hs⟩ := h.sound
  have hheld := h.claims.held x
  have hfits := h.fits x
  cases hx : t.place x with
  | outside =>
    rw [Threads.go, hx]
    exact ⟨parked, h, fun _ _ => rfl, fun hne => absurd rfl hne, fun hne => absurd rfl hne⟩
  | mallocs n =>
    rw [Threads.go, hx]
    exact h.tryLock hx (.ends rfl rfl) (.same rfl rfl) rfl rfl fun hne => absurd rfl hne
  | splits n =>
    obtain ⟨hrounds, hreserves⟩ := hfits n (by rw [hx]; rfl)
    obtain ⟨bs', next', held', hs'⟩ := hs.malloc hrounds hreserves
    rw [Threads.go, hx]
    refine ⟨parked, h.work hs' ?_ rfl (by rw [hx]; rfl), fun _ _ => rfl, fun _ => .inl ?_, fun _ => ?_⟩
    · exact (h.claims.grow fun e he => mem_malloc he).keep fun a ha => by cases ha
    · simp [Place.locks]
    · simp [Place.left]
  | frees a =>
    rw [Threads.go, hx]
    exact h.tryLock hx (.same rfl rfl) (.same rfl rfl) rfl rfl fun hne => absurd rfl hne
  | releases a =>
    obtain ⟨bs', held', hs'⟩ := hs.free (hheld a (by rw [hx]; rfl))
    rw [Threads.go, hx]
    refine ⟨parked, h.work hs' ?_ rfl (by rw [hx]; rfl), fun _ _ => rfl, fun _ => .inl ?_, fun _ => ?_⟩
    · exact h.claims.drop (by rw [hx]; rfl) rfl
    · simp [Place.locks]
    · simp [Place.left]
  | unlocks =>
    rw [Threads.go, hx]
    refine ⟨parked, ?_, fun _ _ => rfl, fun _ => .inr ?_, fun _ => ?_⟩
    · exact h.unlock (.ends rfl rfl) (by simp [hx, Place.locks]) (by simp [hx, Place.locks])
    · simp
    · simp [Place.left]
  | seeks i a =>
    rw [Threads.go, hx]
    exact h.tryLock hx (.same rfl rfl) (.same rfl rfl) rfl rfl fun hne => absurd rfl hne
  | parks i a =>
    obtain ⟨next', held', b, hs'⟩ := hs.park (hheld a (by rw [hx]; rfl)) i
    rw [Threads.go, hx]
    refine ⟨_, h.work hs' ?_ rfl (by rw [hx]; rfl), fun j hj => ?_, fun _ => .inl ?_, fun _ => ?_⟩
    · exact h.claims.drop (by rw [hx]; rfl) rfl
    · exact Function.update_of_ne (by simpa [Place.locks] using hj) ..
    · simp [Place.locks]
    · simp [Place.left, lengths]
  | retries i =>
    rw [Threads.go, hx]
    refine h.tryLock hx (.ends rfl rfl) (.ends rfl rfl) rfl rfl fun _ len => ?_
    simp only [Place.left]
    omega
  | drains i =>
    rw [Threads.go, hx]
    simp only
    split
    · refine ⟨parked, ?_, fun _ _ => rfl, fun _ => .inl ?_, fun _ => ?_⟩
      · refine h.unlock (.ends rfl rfl) (by simp [hx, Place.locks]) fun m => ?_
        cases m <;> simp [hx, Place.locks]
      · simp [Place.locks]
      · simp [Place.left]
    · next hne =>
      obtain ⟨bs', hs', -, hlive⟩ := hs.drain 1 i
      refine ⟨_, h.work hs' ?_ rfl (by rw [hx]), fun j hj => ?_, fun _ => .inl ?_, fun _ => ?_⟩
      · rw [hlive]
        exact h.claims.keep fun a ha => by cases ha
      · exact Function.update_of_ne (by simpa [Place.locks] using hj) ..
      · simp [Place.locks]
      · have hpos := List.length_pos_of_ne_nil (h.parked_ne hne)
        simp [Place.left, lengths]
        omega
  | leaves i =>
    rw [Threads.go, hx]
    refine ⟨parked, ?_, fun _ _ => rfl, fun _ => .inr ?_, fun _ => ?_⟩
    · exact h.unlock (.ends rfl rfl) (by simp [hx, Place.locks]) (by simp [hx, Place.locks])
    · simp
    · simp [Place.left]

/-- Every step keeps the invariant, and the pools that its thread has not locked. -/
theorem step {act : Act} (h : Kept t parked) (hlegal : t.Legal (x, act)) :
    ∃ parked', Kept (t.step (x, act)) parked' ∧ ∀ i, .pool i ∉ (t.place x).locks → parked' i = parked i := by
  cases act with
  | malloc n =>
    obtain ⟨hx, hn⟩ := hlegal
    refine ⟨parked, ⟨h.sound, ?_, ?_, ?_⟩, fun _ _ => rfl⟩
    · exact h.claims.keep fun a ha => by cases ha
    · refine fits_update h.fits fun m hm => ?_
      rw [Place.asking, Option.some.injEq] at hm
      exact hm ▸ hn
    · exact h.locks.stay fun l => by rw [hx]; rfl
  | free a =>
    obtain ⟨hx, ha, hfree⟩ := hlegal
    refine ⟨parked, ⟨h.sound, h.claims.claim ha hfree, ?_, ?_⟩, fun _ _ => rfl⟩
    · exact fits_update h.fits fun m hm => by cases hm
    · exact h.locks.stay fun l => by rw [hx]; rfl
  | store p v =>
    obtain ⟨-, e, he, hp, -⟩ := hlegal
    obtain ⟨bs, next, held, hs⟩ := h.sound
    obtain ⟨next', hs'⟩ := hs.store (v := v) ⟨e, he, hp⟩
    exact ⟨parked, ⟨⟨bs, next', held, hs'⟩, h.claims, h.fits, h.locks⟩, fun _ _ => rfl⟩
  | go =>
    obtain ⟨parked', hgoes⟩ := h.go x
    exact ⟨parked', hgoes.kept, hgoes.frame⟩

theorem run {acts : List (τ × Act)} (h : Kept t parked) (hacts : Along Threads.step Legal t acts) :
    ∃ parked', Kept (run Threads.step t acts) parked' := by
  have hstep : ∀ (t : Threads τ) (a : τ × Act), (∃ parked, Kept t parked) → Legal t a → ∃ parked, Kept (t.step a) parked := by
    intro t a ht hlegal
    obtain ⟨parked, ht⟩ := ht
    obtain ⟨parked', ht', -⟩ := ht.step hlegal
    exact ⟨parked', ht'⟩
  exact Along.invariant hstep hacts ⟨parked, h⟩

end Kept

theorem go_place_of_ne (t : Threads τ) (hy : y ≠ x) : (t.go x).place y = t.place y := by
  rw [go]
  split
  all_goals first
    | rfl
    | exact Function.update_of_ne hy ..
    | (split <;> exact Function.update_of_ne hy ..)

/-- Only its own steps move a thread. -/
theorem step_place_of_ne (t : Threads τ) (act : Act) (hy : y ≠ x) : (t.step (x, act)).place y = t.place y := by
  cases act with
  | malloc n => exact Function.update_of_ne hy ..
  | free a => exact Function.update_of_ne hy ..
  | store p v => rfl
  | go => exact t.go_place_of_ne hy

/-- The thread is at the end of its call, or has a lock and `n` steps to go. -/
def Left (x : τ) (t : Threads τ) (n : Nat) : Prop :=
  ∃ parked, Kept t parked ∧ ((t.place x).locks ≠ [] ∨ t.place x = .outside) ∧ (t.place x).left (lengths parked) ≤ n

theorem Left.step {n : Nat} {act : Act} (h : Left x t n) (hx : t.place x ≠ .outside) (hlegal : t.Legal (y, act)) :
    ∃ m, Left x (t.step (y, act)) m ∧ m + (decide (y = x)).toNat ≤ n := by
  obtain ⟨parked, hkept, hbusy, hleft⟩ := h
  have hlocks := hbusy.resolve_right hx
  by_cases hyx : y = x
  · subst hyx
    cases act with
    | malloc n => exact absurd hlegal.1 hx
    | free a => exact absurd hlegal.1 hx
    | store p v => exact absurd hlegal.1 hx
    | go =>
      obtain ⟨parked', hgoes⟩ := hkept.go y
      have hnearer := hgoes.nearer hlocks
      refine ⟨_, ⟨parked', hgoes.kept, hgoes.busy hlocks, le_rfl⟩, ?_⟩
      rw [decide_eq_true rfl, Bool.toNat_true]
      exact Nat.succ_le_of_lt (lt_of_lt_of_le hnearer hleft)
  · obtain ⟨parked', hkept', hframe⟩ := hkept.step hlegal
    have hplace : (t.step (y, act)).place x = t.place x := t.step_place_of_ne act (Ne.symm hyx)
    have hsame : (t.place x).left (lengths parked') = (t.place x).left (lengths parked) := by
      refine Place.left_congr fun i hi => congrArg List.length (hframe i fun hi' => ?_)
      exact hyx (hkept.locks.unique _ _ _ hi' hi)
    refine ⟨_, ⟨parked', hkept', hplace ▸ hbusy, le_rfl⟩, ?_⟩
    rw [decide_eq_false hyx, hplace, hsame]
    exact hleft

end Threads

variable [Build]

/-- After a flush nothing is parked, and a block is allocated exactly when the program holds it. -/
theorem Heap.Sound.flushed_leaks {h : Heap} {bs held : List Blk} {next : Nat → Nat} {parked : Fin 3 → List Blk}
    (hs : h.Sound bs next held parked) : h.flushPage.page.leaks = true ↔ h.live ≠ [] := by
  obtain ⟨bs', hs', hlive⟩ := hs.flush
  have hblocks : (lives bs').Perm held := by simpa using hs'.blocks
  have hlength : (lives bs').length = h.live.length := by
    rw [hblocks.length_eq, ← hs'.holds.length_eq, hlive]
  rw [hs'.leaks_iff, ← List.length_pos_iff_ne_nil, ← List.length_pos_iff_ne_nil, hlength]

open Threads

variable {τ : Type} [DecidableEq τ]

/-- In every run of legal calls of any number of threads the payloads do not overlap and no lock is held twice. When no
thread is in a call all locks are free, and a flush leaves a tidy page on which the leak test tells whether the program
holds a block: none is lost in a recycle pool, and none is freed twice. -/
theorem threads_safe (h : Heap) (hbegins : h.Begins) (acts : List (τ × Act))
    (hacts : Along Threads.step Threads.Legal (start h) acts) :
    let t := run Threads.step (start h) acts
    t.heap.Payloads ∧ (∀ l x y, l ∈ (t.place x).locks → l ∈ (t.place y).locks → x = y) ∧
      ((∀ x, t.place x = .outside) → (∀ l, t.taken l = false) ∧ (∃ bs, t.heap.flushPage.Tidy bs) ∧
        (t.heap.flushPage.page.leaks = true ↔ t.heap.live ≠ [])) := by
  obtain ⟨parked, hkept⟩ := (Kept.start hbegins).run hacts
  obtain ⟨bs, next, held, hs⟩ := hkept.sound
  obtain ⟨bs', hs', -⟩ := hs.flush
  refine ⟨hs.payloads, hkept.locks.unique, fun houtside => ⟨fun l => ?_, ⟨bs', hs'.tidy⟩, hs.flushed_leaks⟩⟩
  rw [← Bool.not_eq_true, hkept.locks.taken_iff]
  rintro ⟨x, hx⟩
  rw [houtside x] at hx
  exact absurd hx List.not_mem_nil

omit [Build] [DecidableEq τ] in
/-- Two threads, one of which parks its block while the other one has the page, with their calls behind them. -/
theorem threads_safe_sample :
    letI := untraced
    let t := run Threads.step (start (Heap.fresh 0 0 4096 65536 fun _ => 0) : Threads (Fin 2))
      [(0, .malloc 10), (0, .go), (0, .go), (0, .go), (1, .malloc 100), (1, .go), (1, .go), (1, .go), (1, .store 65624 7),
        (0, .free 65584), (0, .go), (1, .free 65616), (1, .go), (1, .go), (1, .go), (0, .go), (1, .go), (0, .go), (1, .go)]
    t.heap.Payloads ∧ (∀ l x y, l ∈ (t.place x).locks → l ∈ (t.place y).locks → x = y) ∧
      ((∀ x, t.place x = .outside) → (∀ l, t.taken l = false) ∧ (∃ bs, t.heap.flushPage.Tidy bs) ∧
        (t.heap.flushPage.page.leaks = true ↔ t.heap.live ≠ [])) :=
  @threads_safe untraced (Fin 2) inferInstance _
    (@Heap.Begins.page untraced 0 0 4096 65536 (fun _ => 0) (by decide) (by decide) (by decide)) _ (by decide +kernel)

/-- A thread that has a lock never waits for another one: whatever legal calls the others make, it has come to the end
of its call when it has moved as often as the page has bytes, and five times more. -/
theorem lock_ends (h : Heap) (hbegins : h.Begins) (acts more : List (τ × Act)) (x : τ)
    (hacts : Along Threads.step Threads.Legal (start h) (acts ++ more))
    (hlocks : ((run Threads.step (start h) acts).place x).locks ≠ [])
    (hmoves : (run Threads.step (start h) acts).heap.page.size + 5 ≤ more.countP fun a => a.1 = x) :
    ∃ more₁ more₂, more = more₁ ++ more₂ ∧ (run Threads.step (start h) (acts ++ more₁)).place x = .outside := by
  obtain ⟨hacts, hmore⟩ := Along.append.mp hacts
  obtain ⟨parked, hkept⟩ := (Kept.start hbegins).run hacts
  obtain ⟨bs, next, held, hs⟩ := hkept.sound
  have hleft : Left x (run Threads.step (start h) acts) ((run Threads.step (start h) acts).heap.page.size + 5) :=
    ⟨parked, hkept, .inl hlocks, Place.left_le fun i => hs.parked_length⟩
  have hzero : ∀ t, Left x t 0 → t.place x = .outside := by
    rintro t ⟨parked, -, hbusy, hle⟩
    refine hbusy.resolve_left fun hne => ?_
    have hpos : 0 < (t.place x).left (lengths parked) := Place.left_pos hne
    omega
  obtain ⟨more₁, more₂, rfl, hend⟩ := ends_within (fun a : τ × Act => decide (a.1 = x)) (Left x) hzero
    (fun t a n hn houtside hlegal => hn.step houtside hlegal) hmore hleft hmoves
  refine ⟨more₁, more₂, rfl, ?_⟩
  rw [run_append]
  exact hend

theorem along_go (t : Threads τ) (x : τ) (n : Nat) :
    Along Threads.step Threads.Legal t (List.replicate n (x, .go)) := by
  induction n generalizing t with
  | zero => trivial
  | succ n ih => exact ⟨trivial, ih _⟩

omit [Build] [DecidableEq τ] in
/-- The second thread has locked a pool while the first one has the page. -/
theorem lock_ends_sample :
    letI := untraced
    let h := Heap.fresh 0 0 4096 65536 fun _ => 0
    let acts : List (Fin 2 × Act) := [(0, .malloc 10), (0, .go), (0, .go), (0, .go), (1, .malloc 100), (1, .go), (1, .go),
      (1, .go), (0, .free 65584), (0, .go), (1, .free 65616), (1, .go), (1, .go)]
    let more := List.replicate ((run Threads.step (start h) acts).heap.page.size + 5) (1, .go)
    ∃ more₁ more₂, more = more₁ ++ more₂ ∧ (run Threads.step (start h) (acts ++ more₁)).place 1 = .outside := by
  refine @lock_ends untraced (Fin 2) inferInstance _
    (@Heap.Begins.page untraced 0 0 4096 65536 (fun _ => 0) (by decide) (by decide) (by decide)) _ _ 1
    (Along.append.mpr ⟨by decide +kernel, @along_go untraced _ inferInstance ..⟩) (by decide +kernel) ?_
  rw [List.countP_replicate]
  exact le_rfl

end Wenas.Xmalloc
