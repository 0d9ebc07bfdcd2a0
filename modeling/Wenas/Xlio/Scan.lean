import Wenas.Xlio.Transfer

/-!
# What the scanner has still to give

Each call of `traverser_next` takes one node from the set of those that are pending, and the scan ends with that
set empty. A node is listed in a frame, or it waits in the scanner or as the item that did not fit.
-/
namespace Wenas.Xlio

variable {src : Source} {p q : Path} {m n : Node}

/-- A node inside a directory, with the path and the entries given. -/
def Inside (d : Path × List (Name × Node)) (p : Path) (n : Node) : Prop :=
  ∃ x q, p = d.1 ++ x :: q ∧ (Node.dir d.2).get (x :: q) = some n

/-- The directory itself or a node inside. -/
def Below (d : Path × List (Name × Node)) (p : Path) (n : Node) : Prop := p = d.1 ∧ n = .dir d.2 ∨ Inside d p n

def Scanner.Pending (s : Scanner) (p : Path) (n : Node) : Prop :=
  (∃ d ∈ s.stack, Below d p n) ∨ ∃ d, s.current = some d ∧ Inside d p n

theorem pending_none {stack : List (Path × List (Name × Node))} :
    Scanner.Pending ⟨stack, none⟩ = fun q m => ∃ d ∈ stack, Below d q m := by
  funext q m
  simp [Scanner.Pending]

theorem pending_some {stack : List (Path × List (Name × Node))} {d : Path × List (Name × Node)} :
    Scanner.Pending ⟨stack, some d⟩ = fun q m => (∃ d ∈ stack, Below d q m) ∨ Inside d q m := by
  funext q m
  simp [Scanner.Pending]

theorem not_inside_nil (r : Path) : ¬ Inside (r, []) p n := by
  rintro ⟨x, q, -, h⟩
  simp [Node.get] at h

theorem inside_cons {r : Path} {x : Name} {c : Node} {rest : List (Name × Node)} (h : Inside (r, (x, c) :: rest) p n) :
    (∃ q, p = r ++ [x] ++ q ∧ c.get q = some n) ∨ Inside (r, rest) p n := by
  obtain ⟨y, q, hp, hn⟩ := h
  by_cases hy : y = x
  · subst hy
    refine .inl ⟨q, by simp [hp], ?_⟩
    simpa [Node.get, List.lookup] using hn
  · refine .inr ⟨y, q, hp, ?_⟩
    simpa [Node.get, List.lookup, beq_eq_false_iff_ne.mpr hy] using hn

theorem inside_head {r : Path} {x : Name} {c : Node} {rest : List (Name × Node)} (h : c.get q = some n) :
    Inside (r, (x, c) :: rest) (r ++ [x] ++ q) n := by
  refine ⟨x, q, by simp, ?_⟩
  simpa [Node.get, List.lookup] using h

theorem inside_self {r : Path} {x : Name} {rest : List (Name × Node)} : Inside (r, (x, n) :: rest) (r ++ [x]) n := by
  simpa using inside_head (q := []) (n := n) rfl

theorem lookup_mem {x : Name} {c : Node} {ch : List (Name × Node)}
    (h : ch.lookup x = some c) : x ∈ ch.map Prod.fst := by
  induction ch with
  | nil => simp at h
  | cons d ch ih =>
    rw [List.lookup_cons] at h
    by_cases hx : x = d.1
    · simp [hx]
    · simp only [beq_eq_false_iff_ne.mpr hx] at h
      exact List.mem_cons_of_mem _ (ih h)

/-- Names differ, so that no entry hides one after it. -/
theorem inside_tail {r : Path} {x : Name} {c : Node} {rest : List (Name × Node)} (hx : x ∉ rest.map Prod.fst)
    (h : Inside (r, rest) p n) : Inside (r, (x, c) :: rest) p n := by
  obtain ⟨y, q, hp, hn⟩ := h
  have hy : y ≠ x := by
    rintro rfl
    simp only [Node.get, Option.bind_eq_some_iff] at hn
    obtain ⟨c', hc', -⟩ := hn
    exact hx (lookup_mem hc')
  refine ⟨y, q, hp, ?_⟩
  simpa [Node.get, List.lookup, beq_eq_false_iff_ne.mpr hy] using hn

/-- A directory read to its end and one that was pushed hold the same nodes. -/
theorem below_of_get {r : Path} {ch : List (Name × Node)}
    (h : (Node.dir ch).get q = some n) : Below (r, ch) (r ++ q) n := by
  cases q with
  | nil => exact .inl ⟨by simp, by simpa [Node.get] using h.symm⟩
  | cons x q => exact .inr ⟨x, q, rfl, h⟩

theorem get_of_below {r : Path} {ch : List (Name × Node)} (h : Below (r, ch) p n) :
    ∃ q, p = r ++ q ∧ (Node.dir ch).get q = some n := by
  obtain ⟨rfl, rfl⟩ | ⟨x, q, hp, hn⟩ := h
  · exact ⟨[], by simp, rfl⟩
  · exact ⟨x :: q, hp, hn⟩

/-- What a call gave and what is pending after it. -/
structure Gives (before : Path → Node → Prop) (i : Item) (s : Scanner) : Prop where
  item : ∃ p n, i = .of p n ∧ before p n ∧ ∀ q m, before q m → q = p ∧ m = n ∨ s.Pending q m
  old : ∀ q m, s.Pending q m → before q m

theorem pop_some {stack : List (Path × List (Name × Node))} {i : Item} {s : Scanner}
    (h : Scanner.pop stack = (some i, s)) : Gives (fun q m => ∃ d ∈ stack, Below d q m) i s := by
  cases stack with
  | nil => simp [Scanner.pop] at h
  | cons d stack =>
    obtain ⟨r, ch⟩ := d
    simp only [Scanner.pop, Prod.mk.injEq, Option.some.injEq] at h
    obtain ⟨rfl, rfl⟩ := h
    constructor
    · refine ⟨r, .dir ch, rfl, ⟨(r, ch), by simp, .inl ⟨rfl, rfl⟩⟩, ?_⟩
      rintro q m ⟨d, hd, hb⟩
      rcases List.mem_cons.mp hd with rfl | hd
      · obtain hq | hin := hb
        · exact .inl hq
        · exact .inr (.inr ⟨_, rfl, hin⟩)
      · exact .inr (.inl ⟨d, hd, hb⟩)
    · rintro q m (⟨d, hd, hb⟩ | ⟨d, hd, hin⟩)
      · exact ⟨d, List.mem_cons_of_mem _ hd, hb⟩
      · cases hd
        exact ⟨(r, ch), by simp, .inr hin⟩

theorem pop_none {stack : List (Path × List (Name × Node))} (h : (Scanner.pop stack).1 = none) : stack = [] := by
  cases stack with
  | nil => rfl
  | cons d stack => simp [Scanner.pop] at h

/-- An entry that is a directory moves to the stack with all it holds. -/
theorem pending_pushed {r : Path} {x : Name} {ch rest : List (Name × Node)} {stack : List (Path × List (Name × Node))}
    (h : (∃ d ∈ stack, Below d q m) ∨ Inside (r, (x, .dir ch) :: rest) q m) :
    (∃ d ∈ (r ++ [x], ch) :: stack, Below d q m) ∨ Inside (r, rest) q m := by
  obtain ⟨d, hd, hb⟩ | hin := h
  · exact .inl ⟨d, List.mem_cons_of_mem _ hd, hb⟩
  · obtain ⟨q', rfl, hq⟩ | hin := inside_cons hin
    · exact .inl ⟨(r ++ [x], ch), by simp, below_of_get hq⟩
    · exact .inr hin

theorem pushed_pending {r : Path} {x : Name} {ch rest : List (Name × Node)} {stack : List (Path × List (Name × Node))}
    (hx : x ∉ rest.map Prod.fst) (h : (∃ d ∈ (r ++ [x], ch) :: stack, Below d q m) ∨ Inside (r, rest) q m) :
    (∃ d ∈ stack, Below d q m) ∨ Inside (r, (x, .dir ch) :: rest) q m := by
  obtain ⟨d, hd, hb⟩ | hin := h
  · rcases List.mem_cons.mp hd with rfl | hd
    · obtain ⟨q', rfl, hq⟩ := get_of_below hb
      exact .inr (inside_head hq)
    · exact .inl ⟨d, hd, hb⟩
  · exact .inr (inside_tail hx hin)

variable {len : Nat} {r : Path}

theorem readDir_some {i : Item} {s : Scanner} (ch : List (Name × Node)) (stack : List (Path × List (Name × Node)))
    (hnodup : (ch.map Prod.fst).Nodup) (h : Scanner.readDir len r ch stack = (some i, s)) :
    Gives (fun q m => (∃ d ∈ stack, Below d q m) ∨ Inside (r, ch) q m) i s := by
  induction ch generalizing stack with
  | nil =>
    obtain ⟨⟨p, n, hi, hb, hall⟩, hold⟩ := pop_some h
    exact ⟨⟨p, n, hi, .inl hb, fun q m hq => hall q m (hq.resolve_right (not_inside_nil r))⟩,
      fun q m hq => .inl (hold q m hq)⟩
  | cons d rest ih =>
    obtain ⟨x, c⟩ := d
    obtain ⟨hx, hrest⟩ := List.nodup_cons.mp hnodup
    rw [Scanner.readDir.eq_def] at h
    simp only at h
    split at h
    · simp at h
    · cases c with
      | dir ch =>
        obtain ⟨⟨p, n, hi, hb, hall⟩, hold⟩ := ih ((r ++ [x], ch) :: stack) hrest h
        exact ⟨⟨p, n, hi, pushed_pending hx hb, fun q m hq => hall q m (pending_pushed hq)⟩,
          fun q m hq => pushed_pending hx (hold q m hq)⟩
      | file data =>
        simp only [Prod.mk.injEq, Option.some.injEq] at h
        obtain ⟨rfl, rfl⟩ := h
        constructor
        · refine ⟨r ++ [x], .file data, rfl, .inr ?_, ?_⟩
          · exact inside_self
          · rintro q m (hq | hq)
            · exact .inr (.inl hq)
            · obtain ⟨q', rfl, hm⟩ | hin := inside_cons hq
              · cases q' with
                | nil => exact .inl ⟨by simp, by simpa [Node.get] using hm.symm⟩
                | cons y q' => simp [Node.get] at hm
              · exact .inr (.inr ⟨_, rfl, hin⟩)
        · rintro q m (hq | ⟨d, hd, hin⟩)
          · exact .inl hq
          · cases hd
            exact .inr (inside_tail hx hin)

/-- No path is too long, and then the scan ends with nothing left. -/
theorem readDir_none (ch : List (Name × Node)) (stack : List (Path × List (Name × Node)))
    (hlen : ∀ x c, (x, c) ∈ ch → len + slashed (r ++ [x]) < fsPathMaxLen)
    (h : (Scanner.readDir len r ch stack).1 = none) :
    ¬ ((∃ d ∈ stack, Below d p n) ∨ Inside (r, ch) p n) := by
  induction ch generalizing stack with
  | nil =>
    have hs := pop_none h
    subst hs
    simpa using not_inside_nil r
  | cons d rest ih =>
    obtain ⟨x, c⟩ := d
    rw [Scanner.readDir.eq_def] at h
    simp only [if_neg (Nat.not_le.mpr (hlen x c List.mem_cons_self))] at h
    cases c with
    | dir ch =>
      intro hp
      exact ih _ (fun y c hy => hlen y c (List.mem_cons_of_mem _ hy)) h (pending_pushed hp)
    | file data => simp at h

/-- What is pending is in the tree, and the entries left of the current directory have different names. -/
structure Scanner.Sound (src : Source) (s : Scanner) : Prop where
  found : ∀ p n, s.Pending p n → src.tree.get p = some n
  nodup : ∀ d, s.current = some d → (d.2.map Prod.fst).Nodup

/-- Every path of the source is one that the scanner can write. -/
def Source.Short (src : Source) : Prop :=
  ∀ p n, src.tree.get p = some n → src.uri.length + slashed p < fsPathMaxLen

theorem inside_of_mem {x : Name} {c : Node} {ch : List (Name × Node)} (hnodup : (ch.map Prod.fst).Nodup)
    (h : (x, c) ∈ ch) : Inside (r, ch) (r ++ [x]) c := by
  induction ch with
  | nil => cases h
  | cons d ch ih =>
    obtain ⟨y, b⟩ := d
    obtain ⟨hy, hch⟩ := List.nodup_cons.mp hnodup
    rcases List.mem_cons.mp h with heq | hmem
    · cases heq
      exact inside_self
    · exact inside_tail hy (ih hch hmem)

theorem next_none {s : Scanner} (hs : s.Sound src) (hshort : src.Short)
    (h : (traverserNext src.uri.length s).1 = none) : ¬ s.Pending p n := by
  obtain ⟨stack, current⟩ := s
  cases current with
  | none =>
    have hempty := pop_none h
    subst hempty
    simp [pending_none]
  | some d =>
    obtain ⟨r, ch⟩ := d
    have hread := readDir_none (p := p) (n := n) ch stack ?_ h
    · simpa [Scanner.Pending] using hread
    · intro x c hmem
      exact hshort _ _ (hs.found _ _ (.inr ⟨_, rfl, inside_of_mem (hs.nodup _ rfl) hmem⟩))

theorem pop_nodup {stack : List (Path × List (Name × Node))}
    (h : ∀ d ∈ stack, (d.2.map Prod.fst).Nodup) :
    ∀ d, (Scanner.pop stack).2.current = some d → (d.2.map Prod.fst).Nodup := by
  intro d hd
  cases stack with
  | nil => simp [Scanner.pop] at hd
  | cons b stack =>
    obtain rfl : b = d := by simpa [Scanner.pop] using hd
    exact h b List.mem_cons_self

theorem readDir_nodup (ch : List (Name × Node)) (stack : List (Path × List (Name × Node)))
    (hstack : ∀ d ∈ stack, (d.2.map Prod.fst).Nodup) (hnodup : (ch.map Prod.fst).Nodup)
    (hdirs : ∀ x c, (x, Node.dir c) ∈ ch → (c.map Prod.fst).Nodup) :
    ∀ d, (Scanner.readDir len r ch stack).2.current = some d → (d.2.map Prod.fst).Nodup := by
  induction ch generalizing stack with
  | nil => exact pop_nodup hstack
  | cons b rest ih =>
    obtain ⟨x, c⟩ := b
    have hrest := (List.nodup_cons.mp hnodup).2
    intro d hd
    rw [Scanner.readDir.eq_def] at hd
    simp only at hd
    split at hd
    · cases hd
    · cases c with
      | dir ch =>
        refine ih ((r ++ [x], ch) :: stack) ?_ hrest (fun y c hy => hdirs y c (List.mem_cons_of_mem _ hy)) d hd
        intro b hb
        rcases List.mem_cons.mp hb with rfl | hb
        · exact hdirs x ch List.mem_cons_self
        · exact hstack b hb
      | file data =>
        cases hd
        exact hrest

theorem Scanner.Sound.stack_nodup {s : Scanner} (hs : s.Sound src) : ∀ d ∈ s.stack, (d.2.map Prod.fst).Nodup :=
  fun d hd => src.distinct _ _ (hs.found d.1 (.dir d.2) (.inl ⟨d, hd, .inl ⟨rfl, rfl⟩⟩))

/-- A call gives a node of the tree, and all that was pending but this node still is. -/
theorem next_some {s t : Scanner} {i : Item} (hs : s.Sound src) (h : traverserNext src.uri.length s = (some i, t)) :
    t.Sound src ∧ ∃ p n, i = .of p n ∧ src.tree.get p = some n ∧
      ∀ q m, s.Pending q m → q = p ∧ m = n ∨ t.Pending q m := by
  have hstack := hs.stack_nodup
  have ht : t = (traverserNext src.uri.length s).2 := by rw [h]
  have hgives : Gives s.Pending i t := by
    obtain ⟨stack, current⟩ := s
    cases current with
    | none =>
      rw [pending_none]
      exact pop_some h
    | some d =>
      rw [pending_some]
      exact readDir_some d.2 stack (hs.nodup _ rfl) h
  obtain ⟨⟨p, n, hi, hp, hall⟩, hold⟩ := hgives
  refine ⟨⟨fun q m hq => hs.found q m (hold q m hq), ?_⟩, p, n, hi, hs.found p n hp, hall⟩
  subst ht
  obtain ⟨stack, current⟩ := s
  cases current with
  | none => exact pop_nodup hstack
  | some d =>
    refine readDir_nodup d.2 stack hstack (hs.nodup _ rfl) ?_
    intro x c hmem
    exact src.distinct _ _ (hs.found _ _ (.inr ⟨d, rfl, inside_of_mem (hs.nodup d rfl) hmem⟩))

/-- The entry of a list that stands for a node of the tree. -/
def Source.entry (src : Source) (p : Path) (n : Node) : Entry :=
  ⟨(Item.of p n).isFile, srcName src.uri :: p, (Item.of p n).size, zeroMd5⟩

@[simp] theorem item_path : (Item.of p n).path = p := by cases n <;> rfl

theorem Stream.entry_of {s : Stream} (h : s.uri = src.uri) : s.entry (.of p n) = src.entry p n := by
  simp [Stream.entry, Source.entry, h]

/-- A node that the uploader has not listed yet. -/
def Stream.Scans (s : Stream) (q : Path) (m : Node) : Prop :=
  ∃ sc, s.scanner = some sc ∧ (sc.Pending q m ∨ s.item = some (.of q m))

structure Stream.Scanning (src : Source) (s : Stream) : Prop where
  uri : s.uri = src.uri
  sound : ∀ sc, s.scanner = some sc → sc.Sound src
  item : ∀ i, s.item = some i → ∃ p n, i = .of p n ∧ src.tree.get p = some n

def Listed (src : Source) (e : Entry) : Prop := ∃ p n, src.tree.get p = some n ∧ e = src.entry p n

/-- A part of the scan: what waited before is in the list or waits after it. -/
structure Listing (src : Source) (before : Path → Node → Prop) (s : Stream) (r : Stream × List Entry) : Prop where
  same : ∃ sc i size, r.1 = { s with scanner := sc, item := i, listSize := size }
  scanning : r.1.Scanning src
  listed : ∀ e ∈ r.2, Listed src e
  all : ∀ q m, before q m → src.entry q m ∈ r.2 ∨ r.1.Scans q m

theorem scanLoop_listing {s : Stream} {sc : Scanner} (room : Nat) (huri : s.uri = src.uri) (hshort : src.Short)
    (hs : sc.Sound src) (hp : src.tree.get p = some n) :
    Listing src (fun q m => q = p ∧ m = n ∨ sc.Pending q m) s (s.scanLoop sc (.of p n) room) := by
  induction room using Nat.strong_induction_on generalizing s sc p n with
  | _ room ih =>
    rw [Stream.scanLoop]
    split
    · constructor
      · exact ⟨_, _, _, rfl⟩
      · refine ⟨huri, ?_, ?_⟩
        · rintro sc' ⟨⟩
          exact hs
        · rintro i ⟨⟩
          exact ⟨p, n, rfl, hp⟩
      · simp
      · rintro q m (⟨rfl, rfl⟩ | hq)
        · exact .inr ⟨sc, rfl, .inr rfl⟩
        · exact .inr ⟨sc, rfl, .inl hq⟩
    · rename_i hroom
      have hless : room - (s.entry (.of p n)).lineSize < room := by
        simp only [Entry.lineSize, keyed, xlineSize] at hroom ⊢
        omega
      dsimp only
      split
      · rename_i sc' hnext
        rw [huri] at hnext
        have hdone : ∀ q m, ¬ sc.Pending q m := fun q m => next_none hs hshort (by rw [hnext])
        constructor
        · exact ⟨_, _, _, rfl⟩
        · exact ⟨huri, by rintro sc' ⟨⟩, by rintro i ⟨⟩⟩
        · intro e he
          obtain rfl := List.mem_singleton.mp he
          exact ⟨p, n, hp, Stream.entry_of huri⟩
        · rintro q m (⟨rfl, rfl⟩ | hq)
          · exact .inl (by simp [Stream.entry_of huri])
          · exact absurd hq (hdone q m)
      · rename_i i' sc' hnext
        rw [huri] at hnext
        obtain ⟨hs', p', n', rfl, hp', hall⟩ := next_some hs hnext
        have hrest := ih _ hless (s := { s with listSize := add64 s.listSize (Item.of p n).size }) huri hs' hp'
        constructor
        · obtain ⟨a, b, c, habc⟩ := hrest.same
          exact ⟨a, b, c, habc⟩
        · exact hrest.scanning
        · intro e he
          rcases List.mem_cons.mp he with rfl | he
          · exact ⟨p, n, hp, Stream.entry_of huri⟩
          · exact hrest.listed e he
        · rintro q m (⟨rfl, rfl⟩ | hq)
          · exact .inl (by simp [Stream.entry_of huri])
          · exact (hrest.all q m (hall q m hq)).imp_left (List.mem_cons_of_mem _)

/-- A frame takes the head of a list and any one entry of the source. -/
def Source.FitsIn (src : Source) (frameSize : Nat) : Prop :=
  ∀ p n, src.tree.get p = some n → listHead + (src.entry p n).lineSize ≤ frameSize

theorem scanLoop_ne_nil {s : Stream} {sc : Scanner} (huri : s.uri = src.uri) (hfits : src.FitsIn s.frameSize)
    (hp : src.tree.get p = some n) : (s.scanLoop sc (.of p n) (s.frameSize - listHead)).2 ≠ [] := by
  have hroom := hfits p n hp
  rw [Stream.scanLoop, dif_neg]
  · split <;> simp
  · rw [Stream.entry_of huri]
    omega

theorem scanDir_listing {s : Stream} {sc : Scanner} (h : s.Scanning src) (hsc : s.scanner = some sc)
    (hshort : src.Short) :
    Listing src (fun q m => src.tree.get q = some m ∧ s.Scans q m) s (s.scanDir sc) := by
  have hs := h.sound sc hsc
  rw [Stream.scanDir]
  split
  · rename_i i hi
    obtain ⟨p, n, rfl, hp⟩ := h.item i hi
    have hl := scanLoop_listing (s.frameSize - listHead) h.uri hshort hs hp
    refine ⟨hl.same, hl.scanning, hl.listed, ?_⟩
    rintro q m ⟨hm, sc', hsc', hq⟩
    obtain rfl : sc = sc' := by simpa [hsc] using hsc'
    apply hl.all
    obtain hq | hq := hq
    · exact .inr hq
    · have hpath : p = q := by simpa using congrArg (Option.map Item.path) (hi.symm.trans hq)
      subst hpath
      exact .inl ⟨rfl, Option.some.inj (hm.symm.trans hp)⟩
  · rename_i hi
    have hold : ∀ q m, s.Scans q m → sc.Pending q m := by
      rintro q m ⟨sc', hsc', hq⟩
      obtain rfl : sc = sc' := by simpa [hsc] using hsc'
      simpa [hi] using hq
    split
    · rename_i sc' hnext
      rw [h.uri] at hnext
      refine ⟨⟨_, _, _, rfl⟩, ⟨h.uri, by rintro sc' ⟨⟩, by rintro i ⟨⟩⟩, by simp, ?_⟩
      rintro q m ⟨-, hq⟩
      exact absurd (hold q m hq) (next_none hs hshort (by rw [hnext]))
    · rename_i i sc' hnext
      rw [h.uri] at hnext
      obtain ⟨hs', p, n, rfl, hp, hall⟩ := next_some hs hnext
      have hl := scanLoop_listing (s := s) (s.frameSize - listHead) h.uri hshort hs' hp
      refine ⟨hl.same, hl.scanning, hl.listed, ?_⟩
      rintro q m ⟨-, hq⟩
      exact hl.all q m (hall q m (hold q m hq))

/-- A list with no entry ends the scan. -/
theorem scanDir_nil {s : Stream} {sc : Scanner} (h : s.Scanning src) (hsc : s.scanner = some sc)
    (hfits : src.FitsIn s.frameSize) (hnil : (s.scanDir sc).2 = []) : (s.scanDir sc).1.scanner = none := by
  rw [Stream.scanDir] at hnil ⊢
  split at hnil
  · rename_i i hi
    obtain ⟨p, n, rfl, hp⟩ := h.item i hi
    exact absurd hnil (scanLoop_ne_nil h.uri hfits hp)
  · split at hnil
    · rfl
    · rename_i i sc' hnext
      rw [h.uri] at hnext
      obtain ⟨-, p, n, rfl, hp, -⟩ := next_some (h.sound sc hsc) hnext
      exact absurd hnil (scanLoop_ne_nil h.uri hfits hp)

/-- An uploader that can be asked for a list: a single file waits as its size. -/
structure Stream.Ready (src : Source) (s : Stream) : Prop where
  scanning : s.Scanning src
  single : s.scanner = none → 0 < s.fileSize → ∃ data, src.tree = .file data ∧ data.length = s.fileSize
  unsized : s.scanner ≠ none → s.fileSize = 0

def Stream.Waits (s : Stream) (q : Path) (m : Node) : Prop := s.Scans q m ∨ s.scanner = none ∧ 0 < s.fileSize

structure Answered (src : Source) (s : Stream) (r : Stream × List Entry) : Prop where
  same : ∃ sc i size, r.1 = { s with scanner := sc, item := i, listSize := size, fileSize := 0 }
  scanning : r.1.Scanning src
  listed : ∀ e ∈ r.2, Listed src e
  all : ∀ q m, src.tree.get q = some m → s.Waits q m → src.entry q m ∈ r.2 ∨ r.1.Scans q m
  nil : r.2 = [] → r.1.scanner = none

theorem answer_answered {s : Stream} (h : s.Ready src) (hshort : src.Short) (hfits : src.FitsIn s.frameSize) :
    Answered src s s.answer := by
  rw [Stream.answer]
  split
  · rename_i sc hsc
    have hl := scanDir_listing h.scanning hsc hshort
    have hzero : s.fileSize = 0 := h.unsized (by simp [hsc])
    refine ⟨?_, hl.scanning, hl.listed, ?_, scanDir_nil h.scanning hsc hfits⟩
    · obtain ⟨a, b, c, habc⟩ := hl.same
      exact ⟨a, b, c, by rw [habc, ← hzero]⟩
    · rintro q m hm (hq | ⟨hnone, -⟩)
      · exact hl.all q m ⟨hm, hq⟩
      · simp [hsc] at hnone
  · rename_i hsc
    have hscans : ∀ q m, ¬ s.Scans q m := by
      rintro q m ⟨sc, hsome, -⟩
      simp [hsc] at hsome
    split
    · rename_i hpos
      obtain ⟨data, htree, hsize⟩ := h.single hsc hpos
      have hentry : src.entry [] (.file data) = ⟨true, [srcName s.uri], s.fileSize, zeroMd5⟩ := by
        simp [Source.entry, Item.of, hsize, h.scanning.uri]
      refine ⟨⟨s.scanner, s.item, s.listSize, rfl⟩, ⟨h.scanning.uri, h.scanning.sound, h.scanning.item⟩, ?_, ?_, ?_⟩
      · intro e he
        obtain rfl := List.mem_singleton.mp he
        exact ⟨[], .file data, by simp [htree, Node.get], hentry.symm⟩
      · rintro q m hm -
        rw [htree] at hm
        cases q with
        | nil =>
          obtain rfl : Node.file data = m := by simpa [Node.get] using hm
          exact .inl (by simp [hentry])
        | cons x q => simp [Node.get] at hm
      · simp
    · rename_i hpos
      refine ⟨⟨s.scanner, s.item, s.listSize, ?_⟩, h.scanning, by simp, ?_, fun _ => hsc⟩
      · have hzero : s.fileSize = 0 := by omega
        rw [← hzero]
      · rintro q m - (hq | ⟨-, hq⟩)
        · exact absurd hq (hscans q m)
        · exact absurd hq hpos

end Wenas.Xlio
