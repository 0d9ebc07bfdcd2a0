import Wenas.Lib.Loop

/-!
# `traverser_next`

The traverser of `xapi.c` with the bytes of its paths. Each call gives one item: a directory when it is taken from the
stack and opened, a file when it is read from the open directory. Directories that are read go on the stack.
-/
namespace Wenas.Xapi

open Wenas.Loop

abbrev Name := List UInt8

/-- `uv_dirent_t`, which is a directory or another entry. -/
structure Dirent where
  name : Name
  isDir : Bool
deriving DecidableEq

/-- What the calls of libuv give: the entries of a directory that can be opened, one for each `uv_fs_readdir` and `none`
for an error, and the sizes of files. -/
structure Uv where
  opendir : List UInt8 → Option (List (Option Dirent))
  fileSize : List UInt8 → Nat

inductive ItemType where
  | dir
  | file

/-- `struct __xfs_item`. -/
structure Item where
  type : ItemType
  path : List UInt8
  pathLen : Nat
  size : Nat

structure StackNode where
  path : List UInt8
  pathLen : Nat

/-- `struct __xfs_scanner`: the path and the entries of the current directory are set and cleared together. -/
structure Traverser where
  stack : List StackNode
  current : Option (StackNode × List (Option Dirent))

def fsPathMaxLen : Nat := 4096

def traverserInit (startPath : List UInt8) : Traverser := ⟨[⟨startPath, startPath.length + 1⟩], none⟩

/-- Without a current directory the next one is popped and opened. -/
def Traverser.pop (uv : Uv) : List StackNode → Option Item × Traverser
  | [] => (none, ⟨[], none⟩)
  | node :: stack =>
    match uv.opendir node.path with
    | none => (none, ⟨stack, none⟩)
    | some entries => (some ⟨.dir, node.path, node.pathLen, 0⟩, ⟨stack, some (node, entries)⟩)

/-- The entries of the current directory, up to a file or the end. -/
def Traverser.read (uv : Uv) (node : StackNode) : List (Option Dirent) → List StackNode → Option Item × Traverser
  | [], stack => Traverser.pop uv stack
  | none :: _, stack => (none, ⟨stack, none⟩)
  | some dirent :: rest, stack =>
    if dirent.name = [46] ∨ dirent.name = [46, 46] then Traverser.read uv node rest stack
    else
      let fullPath := node.path ++ 47 :: dirent.name
      if fsPathMaxLen ≤ fullPath.length then (none, ⟨stack, none⟩)
      else if dirent.isDir then Traverser.read uv node rest (⟨fullPath, fullPath.length + 1⟩ :: stack)
      else (some ⟨.file, fullPath, fullPath.length + 1, uv.fileSize fullPath⟩, ⟨stack, some (node, rest)⟩)

def traverserNext (uv : Uv) (t : Traverser) : Option Item × Traverser :=
  match t.current with
  | none => Traverser.pop uv t.stack
  | some (node, entries) => Traverser.read uv node entries t.stack

/-- A call of `traverser_next` by a caller that collects the items until it gets none. -/
def scanTurn (uv : Uv) (s : Traverser × List Item) : Turn (Traverser × List Item) :=
  match traverserNext uv s.1 with
  | (none, _) => .stop
  | (some item, t) => .go (t, s.2 ++ [item])

/-- The items of at most `n` calls, the last of which gives none. -/
def scan (uv : Uv) (n : Nat) (startPath : List UInt8) : Option (List Item) :=
  (loop (scanTurn uv) n (traverserInit startPath, [])).map Prod.snd

/-! ### Directory trees -/

/-- A finite tree of directories and other entries, by their names below its root. -/
structure Directory where
  nodes : Finset (List Name)
  isDir : List Name → Bool
  root : [] ∈ nodes ∧ isDir [] = true
  up : ∀ p x, p ++ [x] ∈ nodes → p ∈ nodes ∧ isDir p = true
  names : ∀ p x, p ++ [x] ∈ nodes → x ≠ [46] ∧ x ≠ [46, 46] ∧ 47 ∉ x

/-- The full path of a node. -/
def full (startPath : List UInt8) (p : List Name) : List UInt8 := startPath ++ p.flatMap (47 :: ·)

/-- libuv gives the entries of each directory once, in any order, and perhaps `.` and `..`. -/
def Lists (uv : Uv) (startPath : List UInt8) (tree : Directory) : Prop :=
  ∀ p ∈ tree.nodes, tree.isDir p = true → ∃ entries : List Dirent,
    uv.opendir (full startPath p) = some (entries.map some) ∧ (entries.map Dirent.name).Nodup ∧
      ∀ e : Dirent, e.name ≠ [46] → e.name ≠ [46, 46] →
        (e ∈ entries ↔ p ++ [e.name] ∈ tree.nodes ∧ tree.isDir (p ++ [e.name]) = e.isDir)

def Directory.item (tree : Directory) (uv : Uv) (startPath : List UInt8) (p : List Name) : Item :=
  if tree.isDir p then ⟨.dir, full startPath p, (full startPath p).length + 1, 0⟩
  else ⟨.file, full startPath p, (full startPath p).length + 1, uv.fileSize (full startPath p)⟩

/-! ### What is still to come -/

/-- The directories on the stack, and the current one with the entries that are left, by their names. -/
structure Walk where
  stack : List (List Name)
  current : Option (List Name × List Dirent)

def stackNode (startPath : List UInt8) (p : List Name) : StackNode :=
  ⟨full startPath p, (full startPath p).length + 1⟩

def Walk.traverser (w : Walk) (startPath : List UInt8) : Traverser :=
  ⟨w.stack.map (stackNode startPath), w.current.map fun d => (stackNode startPath d.1, d.2.map some)⟩

/-- Entries that are no directories of the list itself. -/
def Dirent.Shown (e : Dirent) : Prop := e.name ≠ [46] ∧ e.name ≠ [46, 46]

def Walk.Ahead (w : Walk) (q : List Name) : Prop :=
  (∃ d ∈ w.stack, d <+: q) ∨ ∃ d, w.current = some d ∧ ∃ e ∈ d.2, e.Shown ∧ d.1 ++ [e.name] <+: q

/-- Neither of two nodes is inside the other. -/
def Apart (p q : List Name) : Prop := ¬ p <+: q ∧ ¬ q <+: p

structure Walk.Proper (tree : Directory) (w : Walk) : Prop where
  dirs : ∀ d ∈ w.stack, d ∈ tree.nodes ∧ tree.isDir d = true
  apart : w.stack.Pairwise Apart
  once : ∀ d, w.current = some d → (d.2.map Dirent.name).Nodup
  entries : ∀ d, w.current = some d → ∀ e ∈ d.2, e.Shown →
    d.1 ++ [e.name] ∈ tree.nodes ∧ tree.isDir (d.1 ++ [e.name]) = e.isDir ∧ ∀ p ∈ w.stack, Apart p (d.1 ++ [e.name])

/-- The call gives the item of a node, which is then no longer ahead, or there is none ahead. -/
def Walk.Gives (tree : Directory) (uv : Uv) (startPath : List UInt8) (w : Walk) (r : Option Item × Traverser) : Prop :=
  (r.1 = none ∧ ∀ q ∈ tree.nodes, ¬ w.Ahead q) ∨
    ∃ p, ∃ v : Walk, r = (some (tree.item uv startPath p), v.traverser startPath) ∧ v.Proper tree ∧ p ∈ tree.nodes ∧
      w.Ahead p ∧ ∀ q ∈ tree.nodes, v.Ahead q ↔ w.Ahead q ∧ q ≠ p

section

variable {tree : Directory} {uv : Uv} {startPath : List UInt8} {w w' : Walk} {p q d : List Name}
  {stack : List (List Name)} {rest : List Dirent} {e : Dirent} {r : Option Item × Traverser}

theorem full_concat (p : List Name) (x : Name) : full startPath (p ++ [x]) = full startPath p ++ 47 :: x := by
  simp [full]

theorem Walk.Ahead.below (h : w.Ahead p) (hbegins : p <+: q) : w.Ahead q :=
  h.imp (fun ⟨d, hd, hp⟩ => ⟨d, hd, hp.trans hbegins⟩) fun ⟨d, hd, e, he, hshown, hp⟩ =>
    ⟨d, hd, e, he, hshown, hp.trans hbegins⟩

theorem Walk.Gives.congr (h : w.Gives tree uv startPath r) (hsame : ∀ q ∈ tree.nodes, w.Ahead q ↔ w'.Ahead q) :
    w'.Gives tree uv startPath r := by
  obtain ⟨hr, hnone⟩ | ⟨p, v, hr, hv, hp, hahead, hrest⟩ := h
  · exact .inl ⟨hr, fun q hq => (hsame q hq).not.mp (hnone q hq)⟩
  · refine .inr ⟨p, v, hr, hv, hp, (hsame p hp).mp hahead, fun q hq => ?_⟩
    rw [hrest q hq, hsame q hq]

theorem Directory.above (h : p ++ q ∈ tree.nodes) : p ∈ tree.nodes := by
  induction q using List.reverseRecOn with
  | nil => rwa [List.append_nil] at h
  | append_singleton q x ih =>
    rw [← List.append_assoc] at h
    exact ih (tree.up _ x h).1

/-- A node inside another is below one of its entries. -/
theorem Directory.inside (hq : q ∈ tree.nodes) (hne : q ≠ p) (hbegins : p <+: q) :
    ∃ x, p ++ [x] <+: q ∧ p ++ [x] ∈ tree.nodes := by
  obtain ⟨r, rfl⟩ := hbegins
  cases r with
  | nil => exact absurd (List.append_nil p) hne
  | cons x r =>
    have hsplit : p ++ x :: r = p ++ [x] ++ r := by simp
    rw [hsplit] at hq ⊢
    exact ⟨x, List.prefix_append _ r, Directory.above hq⟩

theorem Apart.symm (h : Apart p q) : Apart q p := ⟨h.2, h.1⟩

theorem Apart.child (h : Apart p q) (x : Name) : Apart p (q ++ [x]) := by
  refine ⟨fun hbegins => ?_, fun hbegins => h.2 ((List.prefix_append q [x]).trans hbegins)⟩
  obtain rfl | hp := List.prefix_concat_iff.mp hbegins
  · exact h.2 (List.prefix_append q [x])
  · exact h.1 hp

theorem not_concat_prefix {x : Name} : ¬ p ++ [x] <+: p := by
  intro h
  have hle := h.length_le
  rw [List.length_append, List.length_singleton] at hle
  exact Nat.not_succ_le_self _ hle

theorem apart_names {x y : Name} (h : x ≠ y) : Apart (p ++ [x]) (p ++ [y]) := by
  have hnot : ∀ {x y : Name}, x ≠ y → ¬ p ++ [x] <+: p ++ [y] := fun hne hbegins => by
    rw [List.prefix_append_right_inj, List.cons_prefix_cons] at hbegins
    exact hne hbegins.1
  exact ⟨hnot h, hnot h.symm⟩

/-- A directory is taken from the stack, and its entries take its place. -/
theorem pop_gives (hlists : Lists uv startPath tree) (hw : (Walk.mk stack none).Proper tree) :
    (Walk.mk stack none).Gives tree uv startPath (Traverser.pop uv (stack.map (stackNode startPath))) := by
  cases stack with
  | nil => exact .inl ⟨rfl, fun q _ => by simp [Walk.Ahead]⟩
  | cons d stack =>
    obtain ⟨hd, hdir⟩ := hw.dirs d List.mem_cons_self
    obtain ⟨entries, hopen, honce, hentries⟩ := hlists d hd hdir
    obtain ⟨hfirst, hapart⟩ := List.pairwise_cons.mp hw.apart
    have hinside : ∀ e ∈ entries, e.Shown → d ++ [e.name] ∈ tree.nodes ∧ tree.isDir (d ++ [e.name]) = e.isDir :=
      fun e he hshown => (hentries e hshown.1 hshown.2).mp he
    refine .inr ⟨d, ⟨stack, some (d, entries)⟩, ?_, ⟨fun p hp => hw.dirs p (List.mem_cons_of_mem d hp), hapart, ?_, ?_⟩,
      hd, .inl ⟨d, List.mem_cons_self, List.prefix_refl d⟩, fun q hq => ?_⟩
    · rw [List.map_cons, Traverser.pop]
      simp only [stackNode, hopen, Directory.item, hdir, if_true, Walk.traverser, Option.map_some]
    · rintro _ ⟨rfl⟩
      exact honce
    · rintro _ ⟨rfl⟩ e he hshown
      obtain ⟨hin, htype⟩ := hinside e he hshown
      exact ⟨hin, htype, fun p hp => (hfirst p hp).symm.child e.name⟩
    · constructor
      · rintro (⟨p, hp, hbegins⟩ | ⟨_, ⟨rfl⟩, e, he, -, hbegins⟩)
        · refine ⟨.inl ⟨p, List.mem_cons_of_mem d hp, hbegins⟩, ?_⟩
          rintro rfl
          exact (hfirst p hp).2 hbegins
        · refine ⟨.inl ⟨d, List.mem_cons_self, (List.prefix_append d [e.name]).trans hbegins⟩, ?_⟩
          rintro rfl
          exact not_concat_prefix hbegins
      · rintro ⟨⟨p, hp, hbegins⟩ | ⟨_, hcurrent, -⟩, hne⟩
        · obtain rfl | hin := List.mem_cons.mp hp
          · obtain ⟨x, hx, hnode⟩ := Directory.inside hq hne hbegins
            obtain ⟨hdot, hdots, -⟩ := tree.names p x hnode
            have hlisted := (hentries ⟨x, tree.isDir (p ++ [x])⟩ hdot hdots).mpr ⟨hnode, rfl⟩
            exact .inr ⟨_, rfl, _, hlisted, ⟨hdot, hdots⟩, hx⟩
          · exact .inl ⟨p, hin, hbegins⟩
        · cases hcurrent

/-- The state without the first entry, which is not shown. -/
theorem Walk.Proper.tail (h : (Walk.mk stack (some (p, e :: rest))).Proper tree) :
    (Walk.mk stack (some (p, rest))).Proper tree := by
  refine ⟨h.dirs, h.apart, ?_, ?_⟩
  · rintro _ ⟨rfl⟩
    exact (List.nodup_cons.mp (h.once _ rfl)).2
  · rintro _ ⟨rfl⟩ e' he' hshown
    exact h.entries _ rfl e' (List.mem_cons_of_mem e he') hshown

theorem Walk.Proper.fresh (h : (Walk.mk stack (some (p, e :: rest))).Proper tree) :
    ∀ e' ∈ rest, e.name ≠ e'.name := by
  intro e' he' heq
  exact (List.nodup_cons.mp (h.once _ rfl)).1 (heq ▸ List.mem_map_of_mem he')

/-- The state after a directory is pushed. -/
theorem Walk.Proper.push (h : (Walk.mk stack (some (p, e :: rest))).Proper tree) (hshown : e.Shown)
    (hdir : e.isDir = true) : (Walk.mk ((p ++ [e.name]) :: stack) (some (p, rest))).Proper tree := by
  obtain ⟨hnode, htype, hstack⟩ := h.entries _ rfl e List.mem_cons_self hshown
  refine ⟨fun d hd => ?_, List.pairwise_cons.mpr ⟨fun d hd => (hstack d hd).symm, h.apart⟩, h.tail.once, ?_⟩
  · obtain rfl | hin := List.mem_cons.mp hd
    · exact ⟨hnode, htype.trans hdir⟩
    · exact h.dirs d hin
  · rintro _ ⟨rfl⟩ e' he' hshown'
    obtain ⟨hnode', htype', hstack'⟩ := h.tail.entries _ rfl e' he' hshown'
    refine ⟨hnode', htype', fun d hd => ?_⟩
    obtain rfl | hin := List.mem_cons.mp hd
    · exact apart_names (h.fresh e' he')
    · exact hstack' d hin

theorem ahead_cons : (Walk.mk stack (some (p, e :: rest))).Ahead q ↔
    (e.Shown ∧ p ++ [e.name] <+: q) ∨ (Walk.mk stack (some (p, rest))).Ahead q := by
  simp only [Walk.Ahead, Option.some.injEq, exists_eq_left', List.mem_cons, exists_eq_or_imp]
  exact or_left_comm

theorem ahead_push : (Walk.mk (d :: stack) (some (p, rest))).Ahead q ↔
    d <+: q ∨ (Walk.mk stack (some (p, rest))).Ahead q := by
  simp only [Walk.Ahead, List.mem_cons, exists_eq_or_imp, or_assoc]

theorem read_gives (hlists : Lists uv startPath tree)
    (hshort : ∀ q ∈ tree.nodes, (full startPath q).length < fsPathMaxLen)
    (hw : (Walk.mk stack (some (p, rest))).Proper tree) :
    (Walk.mk stack (some (p, rest))).Gives tree uv startPath
      (Traverser.read uv (stackNode startPath p) (rest.map some) (stack.map (stackNode startPath))) := by
  induction rest generalizing stack with
  | nil =>
    refine (pop_gives hlists ⟨hw.dirs, hw.apart, nofun, nofun⟩).congr fun q _ => ?_
    simp [Walk.Ahead]
  | cons e rest ih =>
    rw [List.map_cons, Traverser.read]
    by_cases hdots : e.name = [46] ∨ e.name = [46, 46]
    · rw [if_pos hdots]
      refine (ih hw.tail).congr fun q _ => ?_
      rw [ahead_cons, or_iff_right]
      rintro ⟨hshown, -⟩
      exact hdots.elim hshown.1 hshown.2
    · have hshown : e.Shown := not_or.mp hdots
      obtain ⟨hnode, htype, hstack⟩ := hw.entries _ rfl e List.mem_cons_self hshown
      have hfull : (stackNode startPath p).path ++ 47 :: e.name = full startPath (p ++ [e.name]) :=
        (full_concat p e.name).symm
      simp only [hfull]
      rw [if_neg hdots, if_neg (Nat.not_le.mpr (hshort _ hnode))]
      cases hdir : e.isDir with
      | true =>
        refine (ih (hw.push hshown hdir)).congr fun q _ => ?_
        rw [ahead_push, ahead_cons, and_iff_right hshown]
      | false =>
        refine .inr ⟨p ++ [e.name], ⟨stack, some (p, rest)⟩, ?_, hw.tail, hnode,
          ahead_cons.mpr (.inl ⟨hshown, List.prefix_refl _⟩),
          fun q hq => ?_⟩
        · simp [Directory.item, htype, hdir, Walk.traverser]
        · rw [ahead_cons, and_iff_right hshown]
          constructor
          · intro hahead
            refine ⟨.inr hahead, ?_⟩
            rintro rfl
            obtain ⟨d, hd, hbegins⟩ | ⟨_, ⟨rfl⟩, e', he', -, hbegins⟩ := hahead
            · exact (hstack d hd).1 hbegins
            · exact (apart_names (hw.fresh e' he')).2 hbegins
          · rintro ⟨hbegins | hahead, hne⟩
            · -- Nothing is inside an entry that is no directory.
              obtain ⟨x, -, hin⟩ := Directory.inside hq hne hbegins
              have habove := (tree.up _ x hin).2
              rw [htype, hdir] at habove
              cases habove
            · exact hahead

theorem next_gives (hlists : Lists uv startPath tree)
    (hshort : ∀ q ∈ tree.nodes, (full startPath q).length < fsPathMaxLen) (hw : w.Proper tree) :
    w.Gives tree uv startPath (traverserNext uv (w.traverser startPath)) := by
  obtain ⟨stack, current⟩ := w
  cases current with
  | none => exact pop_gives hlists hw
  | some d => exact read_gives hlists hshort hw

/-! ### The whole scan -/

/-- The nodes given so far are those that are not ahead, none of them before a directory that it is in. -/
structure Scanned (tree : Directory) (uv : Uv) (startPath : List UInt8) (s : Traverser × List Item) (w : Walk)
    (order : List (List Name)) : Prop where
  traverser : s.1 = w.traverser startPath
  items : s.2 = order.map (tree.item uv startPath)
  proper : w.Proper tree
  nodes : ∀ q, q ∈ order ↔ q ∈ tree.nodes ∧ ¬ w.Ahead q
  ordered : order.Pairwise fun p q => ¬ q <+: p

variable {s t : Traverser × List Item} {order : List (List Name)}

theorem scanned_init : Scanned tree uv startPath (traverserInit startPath, []) ⟨[[]], none⟩ [] where
  traverser := by simp [traverserInit, Walk.traverser, stackNode, full]
  items := rfl
  proper := by
    refine ⟨fun d hd => ?_, List.pairwise_singleton _ _, nofun, nofun⟩
    rw [List.mem_singleton.mp hd]
    exact tree.root
  nodes q := by simp [Walk.Ahead]
  ordered := .nil

theorem nodup_of_ordered (h : order.Pairwise fun p q => ¬ q <+: p) : order.Nodup := by
  refine h.imp ?_
  rintro p _ hnot rfl
  exact hnot (List.prefix_refl p)

theorem Scanned.length_le (h : Scanned tree uv startPath s w order) : s.2.length ≤ tree.nodes.card := by
  rw [h.items, List.length_map, ← List.toFinset_card_of_nodup (nodup_of_ordered h.ordered)]
  exact Finset.card_le_card fun q hq => ((h.nodes q).mp (List.mem_toFinset.mp hq)).1

theorem Scanned.turn (hlists : Lists uv startPath tree)
    (hshort : ∀ q ∈ tree.nodes, (full startPath q).length < fsPathMaxLen) (h : Scanned tree uv startPath s w order) :
    (scanTurn uv s = .stop ∧ ∀ q ∈ tree.nodes, ¬ w.Ahead q) ∨
      ∃ t, scanTurn uv s = .go t ∧ t.2.length = s.2.length + 1 ∧ ∃ v order', Scanned tree uv startPath t v order' := by
  have hgives := next_gives hlists hshort h.proper
  rw [← h.traverser] at hgives
  obtain ⟨hr, hnone⟩ | ⟨p, v, hr, hv, hp, hahead, hrest⟩ := hgives
  · refine .inl ⟨?_, hnone⟩
    cases hnext : traverserNext uv s.1 with
    | mk item t =>
      rw [hnext] at hr
      obtain rfl : item = none := hr
      rw [scanTurn, hnext]
  · refine .inr ⟨(v.traverser startPath, s.2 ++ [tree.item uv startPath p]),
      by rw [scanTurn, hr], by simp, v, order ++ [p],
      rfl, by simp [h.items], hv, fun q => ?_, ?_⟩
    · rw [List.mem_append, List.mem_singleton, h.nodes]
      constructor
      · rintro (⟨hq, hnot⟩ | rfl)
        · exact ⟨hq, fun hin => hnot ((hrest q hq).mp hin).1⟩
        · exact ⟨hp, fun hin => ((hrest q hp).mp hin).2 rfl⟩
      · rintro ⟨hq, hnot⟩
        rw [hrest q hq, not_and_not_right] at hnot
        by_cases hin : w.Ahead q
        · exact .inr (hnot hin)
        · exact .inl ⟨hq, hin⟩
    · refine List.pairwise_append.mpr ⟨h.ordered, List.pairwise_singleton _ _, fun q hq p' hp' hbegins => ?_⟩
      rw [List.mem_singleton.mp hp'] at hbegins
      exact ((h.nodes q).mp hq).2 (hahead.below hbegins)

/-- A name is what comes before the next slash. -/
theorem takeWhile_name {x : Name} (hx : 47 ∉ x) (p : List Name) :
    (x ++ p.flatMap (47 :: ·)).takeWhile (· != 47) = x := by
  rw [List.takeWhile_append_of_pos fun b hb => by simpa using fun heq : b = 47 => hx (heq ▸ hb)]
  cases p with
  | nil => simp
  | cons y p => simp

theorem slashed_inj (hp : ∀ x ∈ p, 47 ∉ x) (hq : ∀ x ∈ q, 47 ∉ x)
    (h : p.flatMap ((47 : UInt8) :: ·) = q.flatMap (47 :: ·)) : p = q := by
  induction p generalizing q with
  | nil =>
    cases q with
    | nil => rfl
    | cons y q => simp at h
  | cons x p ih =>
    cases q with
    | nil => simp at h
    | cons y q =>
      simp only [List.flatMap_cons, List.cons_append, List.cons.injEq, true_and] at h
      have hxy : x = y := by
        rw [← takeWhile_name (hp x List.mem_cons_self) p, h, takeWhile_name (hq y List.mem_cons_self)]
      subst hxy
      rw [ih (fun z hz => hp z (List.mem_cons_of_mem x hz)) (fun z hz => hq z (List.mem_cons_of_mem x hz))
        (List.append_cancel_left h)]

theorem Directory.slashes (hq : q ∈ tree.nodes) : ∀ x ∈ q, 47 ∉ x := by
  intro x hx
  obtain ⟨a, b, rfl⟩ := List.append_of_mem hx
  have hin : a ++ [x] ++ b ∈ tree.nodes := by simpa using hq
  exact (tree.names a x (Directory.above hin)).2.2

/-- The full paths of the nodes are different. -/
theorem full_inj (hp : p ∈ tree.nodes) (hq : q ∈ tree.nodes) (h : full startPath p = full startPath q) : p = q :=
  slashed_inj (Directory.slashes hp) (Directory.slashes hq) (List.append_cancel_left h)

theorem path_item : (tree.item uv startPath p).path = full startPath p := by
  unfold Directory.item
  split <;> rfl

end

/-- The calls end, and give the item of each node once, a directory before all that is inside. -/
theorem scan_once (uv : Uv) (startPath : List UInt8) (tree : Directory) (hlists : Lists uv startPath tree)
    (hshort : ∀ q ∈ tree.nodes, (full startPath q).length < fsPathMaxLen) :
    ∃ (order : List (List Name)) (k : Nat),
      (∀ n ≥ k, scan uv n startPath = some (order.map (tree.item uv startPath))) ∧ (∀ q, q ∈ order ↔ q ∈ tree.nodes) ∧
      (order.Pairwise fun p q => ¬ q <+: p) ∧ ((order.map (tree.item uv startPath)).map Item.path).Nodup := by
  have hfail : ∀ s, (∃ w order, Scanned tree uv startPath s w order) → scanTurn uv s ≠ .fail := by
    rintro s ⟨w, order, h⟩ hfail
    obtain ⟨hstop, -⟩ | ⟨t, hgo, -⟩ := h.turn hlists hshort
    · rw [hstop] at hfail
      cases hfail
    · rw [hgo] at hfail
      cases hfail
  have hgo : ∀ s t, (∃ w order, Scanned tree uv startPath s w order) → scanTurn uv s = .go t →
      (∃ w order, Scanned tree uv startPath t w order) ∧
        tree.nodes.card - t.2.length < tree.nodes.card - s.2.length := by
    rintro s t ⟨w, order, h⟩ hgo
    obtain ⟨hstop, -⟩ | ⟨u, hu, hlen, v, order', h'⟩ := h.turn hlists hshort
    · rw [hstop] at hgo
      cases hgo
    · rw [hu] at hgo
      cases hgo
      have hle := h'.length_le
      exact ⟨⟨v, order', h'⟩, by omega⟩
  obtain ⟨s, ⟨k, hk⟩, ⟨w, order, h⟩, hstop⟩ := ends_of_measure (fun s => tree.nodes.card - s.2.length) hfail hgo
    ⟨_, _, scanned_init⟩
  obtain ⟨-, hnone⟩ | ⟨t, hturn, -⟩ := h.turn hlists hshort
  · have hnodes : ∀ q, q ∈ order ↔ q ∈ tree.nodes := fun q => (h.nodes q).trans (and_iff_left_of_imp (hnone q))
    refine ⟨order, k, fun n hn => ?_, hnodes, h.ordered, ?_⟩
    · rw [scan, hk n hn, ← h.items]
      rfl
    · rw [List.map_map]
      refine List.Nodup.map_on (fun p hp q hq heq => ?_) (nodup_of_ordered h.ordered)
      rw [Function.comp, Function.comp, path_item, path_item] at heq
      exact full_inj ((hnodes p).mp hp) ((hnodes q).mp hq) heq
  · rw [hstop] at hturn
    cases hturn

/-- A file `a`, and a directory `b` with a file `c`. -/
def sampleTree : Directory where
  nodes := {[], [[97]], [[98]], [[98], [99]]}
  isDir p := p == [] || p == [[98]]
  root := by decide
  up p x h := by
    cases p with
    | nil => decide
    | cons y p => cases p <;> simp_all
  names p x h := by
    cases p with
    | nil => obtain rfl | rfl : x = [97] ∨ x = [98] := by simpa using h
             all_goals decide
    | cons y p =>
      have hx : x = [99] := by cases p <;> simp_all
      rw [hx]
      decide

def sampleUv : Uv where
  opendir path :=
    if path = [115] then some [some ⟨[46], true⟩, some ⟨[98], true⟩, some ⟨[97], false⟩]
    else if path = [115, 47, 98] then some [some ⟨[99], false⟩]
    else none
  fileSize _ := 1

theorem scan_once_sample : ∃ (order : List (List Name)) (k : Nat),
    (∀ n ≥ k, scan sampleUv n [115] = some (order.map (sampleTree.item sampleUv [115]))) ∧
      (order.Pairwise fun p q => ¬ q <+: p) ∧ [[98], [99]] ∈ order := by
  have hlists : Lists sampleUv [115] sampleTree := by
    intro p hp hdir
    obtain rfl | rfl : p = [] ∨ p = [[98]] := by simpa [sampleTree] using hdir
    · refine ⟨[⟨[46], true⟩, ⟨[98], true⟩, ⟨[97], false⟩], rfl, by decide, fun e hdot _ => ?_⟩
      obtain ⟨name, isDir⟩ := e
      have hname : name ≠ [46] := hdot
      constructor
      · intro hin
        obtain ⟨rfl, -⟩ | ⟨rfl, rfl⟩ | ⟨rfl, rfl⟩ :
            (name = [46] ∧ isDir = true) ∨ (name = [98] ∧ isDir = true) ∨ name = [97] ∧ isDir = false := by
          simpa using hin
        · exact absurd rfl hname
        · decide
        · decide
      · rintro ⟨hin, htype⟩
        obtain rfl | rfl : name = [97] ∨ name = [98] := by simpa [sampleTree] using hin
        · obtain rfl : false = isDir := htype
          decide
        · obtain rfl : true = isDir := htype
          decide
    · refine ⟨[⟨[99], false⟩], rfl, by decide, fun e _ _ => ?_⟩
      obtain ⟨name, isDir⟩ := e
      constructor
      · intro hin
        obtain ⟨rfl, rfl⟩ : name = [99] ∧ isDir = false := by simpa using hin
        decide
      · rintro ⟨hin, htype⟩
        obtain rfl : name = [99] := by simpa [sampleTree] using hin
        obtain rfl : false = isDir := htype
        decide
  obtain ⟨order, k, hk, hnodes, hordered, -⟩ := scan_once sampleUv [115] sampleTree hlists (by decide)
  exact ⟨order, k, hk, hordered, (hnodes _).mpr (by decide)⟩

end Wenas.Xapi
