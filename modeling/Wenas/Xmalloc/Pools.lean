import Wenas.Xmalloc.Page
import Wenas.Lib.Machine

/-!
# The pages of a pool

`malloc` over the pages of a pool and `free` of an address in one of them, by one thread. A page that `malloc_page` has
not set up has no `ptr`, `head` and `end`, and a read of them ends the run.
-/
namespace Wenas.Xmalloc
open Wenas.Machine

def maxPageNumber : Nat := 1024

/-- `pool->page[i]`: the index that was published, and what `malloc_page` has set up. -/
structure Slot where
  id : Nat
  page : Option Page

structure Pool where
  id : Nat
  pageNumber : Nat
  slots : Nat → Slot
  mem : Mem

/-- What a call does: it dereferences an unset pointer, returns `NULL`, or returns an address. -/
inductive Outcome where
  | fault
  | null (p : Pool)
  | address (p : Pool) (a : Nat)

inductive Scan where
  | fault
  | noRoom
  | served (p : Pool) (a : Nat)

def Scan.isServed : Scan → Bool
  | .served _ _ => true
  | _ => false

namespace Outcome

def pool : Outcome → Option Pool
  | .fault => none
  | .null p => some p
  | .address p _ => some p

def result : Outcome → Option Nat
  | .fault => none
  | .null _ => some 0
  | .address _ a => some a

end Outcome

namespace Pool

def page (p : Pool) (i : Nat) : Option Page := (p.slots i).page.map fun pg => { pg with mem := p.mem }

def put (p : Pool) (i : Nat) (pg : Page) : Pool :=
  { p with mem := pg.mem, slots := Function.update p.slots i ⟨i, some pg⟩ }

variable [Build]

/-- The loop over the pages below `page_number`. -/
def scan (p : Pool) (n : Nat) : List Nat → Scan
  | [] => .noRoom
  | i :: is =>
    match p.page i with
    | none => .fault
    | some pg =>
      match pg.malloc n with
      | (pg, some a) => .served (p.put i pg) a
      | (_, none) => p.scan n is

/-- The loop that takes an index, with the number of its turns. -/
def takeIndex : Nat → Pool → Pool × Option Nat
  | 0, p => (p, none)
  | turns + 1, p =>
    if p.pageNumber < maxPageNumber then
      let i := p.pageNumber
      let p := { p with pageNumber := i + 1 }
      if (p.slots i).id = 0 then ({ p with slots := Function.update p.slots i { p.slots i with id := i } }, some i)
      else takeIndex turns p
    else (p, none)

/-- `malloc`, with the address that the mapping of a new page gives. Without an index `page` is `NULL` when its lock is
opened. -/
def malloc (p : Pool) (n : Nat) (map : Option Nat) : Outcome :=
  match p.scan n (List.range p.pageNumber) with
  | .fault => .fault
  | .served p a => .address p a
  | .noRoom =>
    match takeIndex maxPageNumber p with
    | (_, none) => .fault
    | (p, some i) =>
      if maxPageNumber ≤ p.pageNumber then .null p
      else match map with
      | none => .null p
      | some start =>
        let r := mallocOnNewPage p.id i n start p.mem
        .address (p.put i r.1) r.2

/-- `free`: the flag behind the block names the page. -/
def free (p : Pool) (address : Nat) : Outcome :=
  if address = 0 then .null p
  else
    let ptr := sub64 address workPointerSize
    let i := p.mem.get (nextPointer p.mem ptr) .flag >>> 1 &&& 0x3FF
    match p.page i with
    | none => .fault
    | some pg => .null (p.put i (pg.freePointer ptr))

/-- `malloc_pool` for one pool, with the addresses that its two mappings give. -/
def preload (id start start' : Nat) (mem : Mem) : Pool :=
  let pg := mallocPage id 0 mmPageSize start mem
  let pg' := mallocPage id 1 mmPageSize start' pg.mem
  ⟨id, 2, Function.update (Function.update (fun _ => ⟨0, none⟩) 0 ⟨0, some pg⟩) 1 ⟨1, some pg'⟩, pg'.mem⟩

end Pool

inductive Call where
  | malloc (n : Nat) (map : Option Nat)
  | free (address : Nat)

variable [Build]

def Pool.call (p : Pool) : Call → Outcome
  | .malloc n map => p.malloc n map
  | .free address => p.free address

def poolStep (p : Option Pool) (c : Call) : Option Pool := p.bind fun p => (p.call c).pool

/-- What the calls return, up to the first that faults. -/
def poolResult (p : Option Pool) (c : Call) : Option Nat := p.bind fun p => (p.call c).result

/-- The call returns `NULL`, every page below `page_number` is set up, and no later call tells that it was made. -/
def Pool.Usable (p : Pool) (o : Outcome) : Prop :=
  ∃ q, o = .null q ∧ (∀ i < q.pageNumber, (q.slots i).page.isSome) ∧
    ∀ later, results poolStep poolResult (some q) later = results poolStep poolResult (some p) later

/-! ### The slots from `page_number` on -/

/-- No index from `page_number` on was published. -/
def Pool.Fresh (p : Pool) : Prop := ∀ i, p.pageNumber ≤ i → p.slots i = ⟨0, none⟩

/-- The next index is published without a page. -/
def Pool.publish (p : Pool) : Pool :=
  { p with pageNumber := p.pageNumber + 1, slots := Function.update p.slots p.pageNumber ⟨p.pageNumber, none⟩ }

namespace Pool

variable {p q : Pool} {c : Call} {n i a : Nat} {pg : Page} {is : List Nat} {map : Option Nat}

omit [Build] in
theorem Fresh.put (h : p.Fresh) (hi : i < p.pageNumber) : (p.put i pg).Fresh := by
  intro j hj
  have hne : j ≠ i := (hi.trans_le hj).ne'
  simp only [Pool.put, Function.update_of_ne hne]
  exact h j hj

omit [Build] in
theorem Fresh.publish (h : p.Fresh) : p.publish.Fresh := by
  intro j hj
  have hle : p.pageNumber + 1 ≤ j := hj
  simp only [Pool.publish, Function.update_of_ne (Nat.ne_of_gt hle)]
  exact h j (Nat.le_of_succ_le hle)

theorem Fresh.scan (h : p.Fresh) (his : ∀ i ∈ is, i < p.pageNumber) (hscan : p.scan n is = .served q a) : q.Fresh := by
  induction is with
  | nil => exact absurd hscan (by simp [Pool.scan])
  | cons i is ih =>
    rw [Pool.scan] at hscan
    split at hscan
    · exact absurd hscan (by simp)
    · split at hscan
      · cases hscan
        exact h.put (his i List.mem_cons_self)
      · exact ih (fun j hj => his j (List.mem_cons_of_mem _ hj)) hscan

omit [Build] in
theorem Fresh.takeIndex (h : p.Fresh) : Pool.takeIndex maxPageNumber p =
    if p.pageNumber < maxPageNumber then (p.publish, some p.pageNumber) else (p, none) := by
  have hslot := h p.pageNumber le_rfl
  obtain ⟨turns, hturns⟩ : ∃ turns, maxPageNumber = turns + 1 := ⟨1023, rfl⟩
  rw [hturns, Pool.takeIndex, hturns]
  simp [hslot, Pool.publish]

/-- `malloc` when no page has room. -/
theorem Fresh.malloc (h : p.Fresh) (hscan : p.scan n (List.range p.pageNumber) = .noRoom) :
    p.malloc n map = if maxPageNumber ≤ p.pageNumber then .fault
      else if maxPageNumber ≤ p.pageNumber + 1 then .null p.publish
      else map.elim (.null p.publish) fun start =>
        let r := mallocOnNewPage p.id p.pageNumber n start p.mem
        .address (p.publish.put p.pageNumber r.1) r.2 := by
  rw [Pool.malloc, hscan]
  simp only [h.takeIndex]
  by_cases hlt : p.pageNumber < maxPageNumber
  · rw [if_pos hlt, if_neg (Nat.not_le.mpr hlt)]
    cases map with
    | none => rfl
    | some start => rfl
  · rw [if_neg hlt, if_pos (Nat.not_lt.mp hlt)]

omit [Build] in
theorem Fresh.lt_of_page (h : p.Fresh) (hpage : p.page i = some pg) : i < p.pageNumber := by
  by_contra hle
  rw [page, h i (Nat.not_lt.mp hle)] at hpage
  exact absurd hpage (by simp)

theorem Fresh.call (h : p.Fresh) (hcall : (p.call c).pool = some q) : q.Fresh := by
  cases c with
  | malloc n map =>
    rw [Pool.call] at hcall
    cases hscan : p.scan n (List.range p.pageNumber) with
    | fault =>
      rw [Pool.malloc, hscan] at hcall
      exact absurd hcall (by simp [Outcome.pool])
    | served r a =>
      rw [Pool.malloc, hscan] at hcall
      cases hcall
      exact h.scan (fun i hi => List.mem_range.mp hi) hscan
    | noRoom =>
      rw [h.malloc hscan] at hcall
      split at hcall
      · exact absurd hcall (by simp [Outcome.pool])
      · split at hcall
        · cases hcall
          exact h.publish
        · cases map with
          | none =>
            cases hcall
            exact h.publish
          | some start =>
            cases hcall
            exact h.publish.put (Nat.lt_succ_self _)
  | free address =>
    rw [Pool.call, Pool.free] at hcall
    split at hcall
    · cases hcall
      exact h
    · simp only at hcall
      split at hcall
      · exact absurd hcall (by simp [Outcome.pool])
      · next hpage =>
        cases hcall
        exact h.put (h.lt_of_page hpage)

theorem preload_fresh {id start start' : Nat} {m : Mem} : (preload id start start' m).Fresh := by
  intro i hi
  have hne : i ≠ 1 := Nat.ne_of_gt hi
  have hne' : i ≠ 0 := Nat.ne_of_gt (Nat.zero_lt_of_lt hi)
  simp [preload, Function.update_of_ne hne, Function.update_of_ne hne']

/-- The pools that calls reach from `p`. -/
def Reaches (p : Pool) (calls : List Call) (q : Pool) : Prop := run poolStep (some p) calls = some q

theorem run_none (calls : List Call) : run poolStep none calls = none := by
  induction calls with
  | nil => rfl
  | cons c calls ih => exact ih

theorem Fresh.reaches (h : p.Fresh) {calls : List Call} (hrun : p.Reaches calls q) : q.Fresh := by
  induction calls generalizing p with
  | nil =>
    cases hrun
    exact h
  | cons c calls ih =>
    rw [Reaches, run_cons] at hrun
    cases hcall : (p.call c).pool with
    | none =>
      rw [poolStep, Option.bind_some, hcall, run_none] at hrun
      exact absurd hrun (by simp)
    | some r =>
      rw [poolStep, Option.bind_some, hcall] at hrun
      exact ih (h.call hcall) hrun

end Pool

/-! ### Calls that get no page -/

omit [Build] in
/-- The page that a call published and did not set up is below `page_number` from then on. -/
theorem Pool.publish_unset (p : Pool) :
    p.pageNumber < p.publish.pageNumber ∧ (p.publish.slots p.pageNumber).page = none :=
  ⟨Nat.lt_succ_self _, by simp [Pool.publish]⟩

/-- A call after a failure that left the pool usable returns what it would have returned before. -/
theorem Pool.result_again {p : Pool} {n : Nat} {map : Option Nat} (h : p.Usable (p.malloc n map)) (c : Call) :
    poolResult (poolStep (some p) (.malloc n map)) c = poolResult (some p) c := by
  obtain ⟨q, hnull, -, hlater⟩ := h
  have hstep : poolStep (some p) (.malloc n map) = some q := by
    rw [poolStep, Option.bind_some, Pool.call, hnull]
    rfl
  rw [hstep]
  exact (List.cons.inj (hlater [c])).1

/-- In every pool that calls reach, a call that no page serves and that gets no new one leaves the pool unusable. -/
theorem failed_malloc (id start start' : Nat) (m : Mem) (calls : List Call) (p : Pool)
    (hreach : (Pool.preload id start start' m).Reaches calls p) (n : Nat) (map : Option Nat)
    (hscan : ¬ (p.scan n (List.range p.pageNumber)).isServed)
    (hmap : map = none ∨ maxPageNumber ≤ p.pageNumber + 1) : ¬ p.Usable (p.malloc n map) := by
  have hfresh := Pool.preload_fresh.reaches hreach
  rintro ⟨q, hnull, hset, -⟩
  cases hcase : p.scan n (List.range p.pageNumber) with
  | fault =>
    rw [Pool.malloc, hcase] at hnull
    exact absurd hnull (by simp)
  | served q a =>
    rw [hcase] at hscan
    exact hscan rfl
  | noRoom =>
    have hpublish : p.malloc n map = .fault ∨ p.malloc n map = .null p.publish := by
      rw [hfresh.malloc hcase]
      split
      · exact .inl rfl
      · split
        · exact .inr rfl
        · next hleft =>
          rw [hmap.resolve_right hleft]
          exact .inr rfl
    obtain hfault | hnull' := hpublish
    · rw [hfault] at hnull
      exact absurd hnull (by simp)
    · rw [hnull'] at hnull
      cases hnull
      obtain ⟨hlt, hunset⟩ := p.publish_unset
      have hsome := hset _ hlt
      rw [hunset] at hsome
      exact absurd hsome (by simp)

omit [Build] in
/-- A terabyte on a machine without room for it. -/
theorem failed_malloc_sample :
    letI := untraced
    ¬ (Pool.preload 0 0x10000000 0x20000000 fun _ => 0).Usable
      ((Pool.preload 0 0x10000000 0x20000000 fun _ => 0).malloc (2 ^ 40) none) :=
  letI := untraced
  failed_malloc 0 0x10000000 0x20000000 (fun _ => 0) [] _ rfl (2 ^ 40) none (by decide +kernel) (.inl rfl)

omit [Build] in
/-- The same call twice: the first one returns `NULL`, the second one reads the page that the first one has left. -/
theorem unset_page_read :
    letI := untraced
    results poolStep poolResult (some (Pool.preload 0 0x10000000 0x20000000 fun _ => 0))
        [.malloc (2 ^ 40) none, .malloc (2 ^ 40) none] = [some 0, none] ∧
      ¬ (Pool.preload 0 0x10000000 0x20000000 fun _ => 0).Usable
        ((Pool.preload 0 0x10000000 0x20000000 fun _ => 0).malloc (2 ^ 40) none) := by
  have hruns : @results _ _ _ (@poolStep untraced) (@poolResult untraced)
      (some (@Pool.preload untraced 0 0x10000000 0x20000000 fun _ => 0))
      [.malloc (2 ^ 40) none, .malloc (2 ^ 40) none] = [some 0, none] := by decide +kernel
  refine ⟨hruns, fun husable => ?_⟩
  obtain ⟨hfirst, hsecond, -⟩ := List.cons.inj hruns |>.imp id List.cons.inj
  have hagain := @Pool.result_again untraced _ _ _ husable (.malloc (2 ^ 40) none)
  rw [hfirst, hsecond] at hagain
  exact absurd hagain (by simp)

end Wenas.Xmalloc
