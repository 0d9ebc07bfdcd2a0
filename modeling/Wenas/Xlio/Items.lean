import Wenas.Xlio.Stream

/-!
# The lists of a directory

Each call of `xlio_scan_dir` takes items from the scanner until one does not fit or the scanner has no more. The item that
does not fit is kept for the next call.
-/
namespace Wenas.Xlio

/-- The items that the scanner gives until its end. -/
inductive Scanner.Yields (uriLen : Nat) : Scanner → List Item → Prop
  | stop {sc : Scanner} (last : (traverserNext uriLen sc).1 = none) : Scanner.Yields uriLen sc []
  | next {sc sc' : Scanner} {i : Item} {items : List Item} (read : traverserNext uriLen sc = (some i, sc'))
      (rest : Scanner.Yields uriLen sc' items) : Scanner.Yields uriLen sc (i :: items)

/-- A call for a frame of `size` bytes, while the scanner is open. -/
def Stream.scanCall (s : Stream) (size : Nat) : Stream × List Entry :=
  match s.scanner with
  | some sc => { s with frameSize := size }.scanDir sc
  | none => (s, [])

/-- The lists of calls one after the other. -/
def Stream.scanCalls : List Nat → Stream → Stream × List (List Entry)
  | [], s => (s, [])
  | size :: sizes, s =>
    let (s, list) := s.scanCall size
    let (s, lists) := Stream.scanCalls sizes s
    (s, list :: lists)

/-- The items that are still to be listed: first the one that did not fit. -/
def Stream.Unlisted (s : Stream) (items : List Item) : Prop :=
  match s.scanner with
  | none => s.item = none ∧ items = []
  | some sc =>
    match s.item with
    | none => sc.Yields s.uri.length items
    | some i => ∃ rest, items = i :: rest ∧ sc.Yields s.uri.length rest

/-- A frame of `size` bytes takes the list with any one of the items. -/
def Stream.Takes (s : Stream) (items : List Item) (size : Nat) : Prop :=
  ∀ i ∈ items, listHead + (s.entry i).lineSize ≤ size

/-- What is listed in part, and what is left behind. -/
structure Lists (s : Stream) (items : List Item) (r : Stream × List Entry) (listed left : List Item) : Prop where
  parts : items = listed ++ left
  list : r.2 = listed.map s.entry
  unlisted : r.1.Unlisted left
  uri : r.1.uri = s.uri
  size : r.1.listSize ≡ s.listSize + (listed.map Item.size).sum [MOD 2 ^ 64]
  kept : r.1.scanner ≠ none → r.1.item = left.head? ∧ left ≠ []
  closed : left = [] → r.1.scanner = none

variable {s : Stream} {sc : Scanner} {i : Item} {items : List Item}

theorem add64_modEq (a b : Nat) : add64 a b ≡ a + b [MOD 2 ^ 64] := Nat.mod_modEq _ _

theorem scanLoop_lists (room : Nat) (hrest : sc.Yields s.uri.length items) :
    ∃ listed left, Lists s (i :: items) (s.scanLoop sc i room) listed left := by
  induction room using Nat.strong_induction_on generalizing s sc i items with
  | _ room ih =>
    rw [Stream.scanLoop]
    split
    · refine ⟨[], i :: items, rfl, rfl, ⟨items, rfl, hrest⟩, rfl, Nat.ModEq.refl _,
        fun _ => ⟨rfl, List.cons_ne_nil _ _⟩, ?_⟩
      exact fun h => absurd h (List.cons_ne_nil _ _)
    · rename_i hroom
      have hless : room - (s.entry i).lineSize < room := by
        simp only [Entry.lineSize, keyed, xlineSize] at hroom ⊢
        omega
      dsimp only
      cases hrest with
      | stop hlast =>
        generalize hread : traverserNext s.uri.length sc = r at hlast
        obtain ⟨o, sc'⟩ := r
        obtain rfl : o = none := hlast
        refine ⟨[i], [], rfl, rfl, ⟨rfl, rfl⟩, rfl, ?_, fun h => absurd rfl h, fun _ => rfl⟩
        simpa using add64_modEq s.listSize i.size
      | next hread hrest =>
        rename_i sc' i' items
        rw [hread]
        obtain ⟨listed, left, hlists⟩ := ih _ hless (s := { s with listSize := add64 s.listSize i.size })
          (i := i') hrest
        refine ⟨i :: listed, left, by rw [hlists.parts]; rfl, ?_, hlists.unlisted, hlists.uri, ?_, hlists.kept, hlists.closed⟩
        · exact congrArg (s.entry i :: ·) hlists.list
        · refine hlists.size.trans ?_
          rw [List.map_cons, List.sum_cons, ← Nat.add_assoc]
          exact (add64_modEq s.listSize i.size).add_right _

/-- With room for the first item it is listed. -/
theorem scanLoop_head {room : Nat} (hroom : (s.entry i).lineSize ≤ room) :
    (s.scanLoop sc i room).2.head? = some (s.entry i) := by
  rw [Stream.scanLoop, dif_neg (by omega)]
  dsimp only
  split <;> rfl

theorem scanCall_kept {size : Nat} (hsc : s.scanner = some sc) (hitem : s.item = some i) :
    s.scanCall size = { s with frameSize := size }.scanLoop sc i (size - listHead) := by
  unfold Stream.scanCall Stream.scanDir
  rw [hsc, hitem]

theorem scanCall_first {size : Nat} (hsc : s.scanner = some sc) (hitem : s.item = none) :
    s.scanCall size =
      match traverserNext s.uri.length sc with
      | (none, _) => ({ s with frameSize := size, scanner := none, item := none }, [])
      | (some i, sc') => { s with frameSize := size }.scanLoop sc' i (size - listHead) := by
  have hcall : s.scanCall size = { s with frameSize := size }.scanDir sc := by
    unfold Stream.scanCall
    rw [hsc]
  rw [hcall]
  unfold Stream.scanDir
  dsimp only
  generalize traverserNext s.uri.length sc = r
  cases r with
  | mk o sc' => cases o <;> rw [hitem]

/-- What one call lists: at least one item, if there is one. -/
theorem scanCall_lists {size : Nat} (h : s.Unlisted items) (hfits : s.Takes items size) :
    ∃ listed left, Lists s items (s.scanCall size) listed left ∧ (items ≠ [] → listed ≠ []) := by
  have hresult : ∀ {sc : Scanner} {i : Item} {rest : List Item}, items = i :: rest → sc.Yields s.uri.length rest →
      s.scanCall size = { s with frameSize := size }.scanLoop sc i (size - listHead) →
      ∃ listed left, Lists s items (s.scanCall size) listed left ∧ (items ≠ [] → listed ≠ []) := by
    rintro sc i rest rfl hyields hcall
    have hroom := hfits i List.mem_cons_self
    obtain ⟨listed, left, hlists⟩ := scanLoop_lists (s := { s with frameSize := size }) (i := i)
      (size - listHead) hyields
    have hhead := @scanLoop_head { s with frameSize := size } sc i (size - listHead) (Nat.le_sub_of_add_le' hroom)
    rw [← hcall] at hlists hhead
    refine ⟨listed, left, ⟨hlists.parts, hlists.list, hlists.unlisted, hlists.uri, hlists.size, hlists.kept,
      hlists.closed⟩, ?_⟩
    rintro - rfl
    rw [hlists.list] at hhead
    cases hhead
  cases hsc : s.scanner with
  | none =>
    obtain ⟨hitem, rfl⟩ : s.item = none ∧ items = [] := by
      unfold Stream.Unlisted at h
      rwa [hsc] at h
    have hcall : s.scanCall size = (s, []) := by
      unfold Stream.scanCall
      rw [hsc]
    refine ⟨[], [], ?_, fun h => absurd rfl h⟩
    rw [hcall]
    exact ⟨rfl, rfl, h, rfl, Nat.ModEq.refl _, fun hopen => absurd hsc hopen, fun _ => hsc⟩
  | some sc =>
    cases hitem : s.item with
    | some i =>
      obtain ⟨rest, hitems, hyields⟩ : ∃ rest, items = i :: rest ∧ sc.Yields s.uri.length rest := by
        unfold Stream.Unlisted at h
        rwa [hsc, hitem] at h
      exact hresult hitems hyields (scanCall_kept hsc hitem)
    | none =>
      have hyields : sc.Yields s.uri.length items := by
        unfold Stream.Unlisted at h
        rwa [hsc, hitem] at h
      have hcall := @scanCall_first s sc size hsc hitem
      cases hyields with
      | stop hlast =>
        generalize traverserNext s.uri.length sc = r at hlast hcall
        obtain ⟨o, sc'⟩ := r
        obtain rfl : o = none := hlast
        refine ⟨[], [], ?_, fun h => absurd rfl h⟩
        rw [hcall]
        exact ⟨rfl, rfl, ⟨rfl, rfl⟩, rfl, Nat.ModEq.refl _, fun hopen => absurd rfl hopen, fun _ => rfl⟩
      | next hread hrest =>
        rw [hread] at hcall
        exact hresult rfl hrest hcall

theorem takes_congr {t : Stream} {size : Nat} (huri : t.uri = s.uri) : t.Takes items size ↔ s.Takes items size := by
  simp only [Stream.Takes, Stream.entry, huri]

/-- What calls one after the other list, in a stream with `items` to list. -/
structure ListsAll (s : Stream) (items : List Item) (sizes : List Nat) (listed left : List Item) : Prop where
  parts : items = listed ++ left
  list : (s.scanCalls sizes).2.flatten = listed.map s.entry
  unlisted : (s.scanCalls sizes).1.Unlisted left
  uri : (s.scanCalls sizes).1.uri = s.uri
  size : (s.scanCalls sizes).1.listSize ≡ s.listSize + (listed.map Item.size).sum [MOD 2 ^ 64]
  kept : sizes ≠ [] → (s.scanCalls sizes).1.scanner ≠ none → (s.scanCalls sizes).1.item = left.head? ∧ left ≠ []
  closed : sizes ≠ [] → left = [] → (s.scanCalls sizes).1.scanner = none
  ends : sizes ≠ [] → items.length ≤ sizes.length → left = []

theorem scanCalls_lists (sizes : List Nat) (h : s.Unlisted items) (hfits : ∀ size ∈ sizes, s.Takes items size) :
    ∃ listed left, ListsAll s items sizes listed left := by
  induction sizes generalizing s items with
  | nil => exact ⟨[], items, rfl, rfl, h, rfl, Nat.ModEq.refl _, fun h => absurd rfl h, fun h => absurd rfl h,
    fun h => absurd rfl h⟩
  | cons size sizes ih =>
    obtain ⟨listed, middle, hfirst, hsome⟩ := scanCall_lists h (hfits size List.mem_cons_self)
    have hfits' : ∀ size' ∈ sizes, (s.scanCall size).1.Takes middle size' := by
      intro size' hmem
      rw [takes_congr hfirst.uri]
      intro i hi
      exact hfits size' (List.mem_cons_of_mem _ hmem) i (hfirst.parts ▸ List.mem_append_right _ hi)
    obtain ⟨listed', left, hrest⟩ := ih hfirst.unlisted hfits'
    have hentry : (s.scanCall size).1.entry = s.entry := by
      funext i
      simp only [Stream.entry, hfirst.uri]
    have hcalls : s.scanCalls (size :: sizes) =
        (((s.scanCall size).1.scanCalls sizes).1, (s.scanCall size).2 :: ((s.scanCall size).1.scanCalls sizes).2) := rfl
    have hshort : middle.length + 1 ≤ items.length ∨ middle = [] := by
      by_cases hnil : items = []
      · right
        have heq := hfirst.parts
        rw [hnil] at heq
        exact (List.append_eq_nil_iff.mp heq.symm).2
      · left
        have hpos := List.length_pos_of_ne_nil (hsome hnil)
        rw [hfirst.parts, List.length_append]
        omega
    have hlast : sizes = [] → left = middle := by
      rintro rfl
      have hnone : listed' = [] := by simpa [Stream.scanCalls] using hrest.list.symm
      rw [hrest.parts, hnone, List.nil_append]
    refine ⟨listed ++ listed', left, ?_, ?_, ?_, ?_, ?_, fun _ => ?_, fun _ => ?_, fun _ => ?_⟩
    · rw [hfirst.parts, hrest.parts, List.append_assoc]
    · rw [hcalls, List.flatten_cons, hrest.list, hfirst.list, hentry, List.map_append]
    · exact hrest.unlisted
    · exact hrest.uri.trans hfirst.uri
    · rw [hcalls, List.map_append, List.sum_append, ← Nat.add_assoc]
      exact hrest.size.trans (hfirst.size.add_right _)
    · cases sizes with
      | nil => exact hlast rfl ▸ hfirst.kept
      | cons size' sizes => exact hrest.kept (List.cons_ne_nil _ _)
    · cases sizes with
      | nil => exact hlast rfl ▸ hfirst.closed
      | cons size' sizes => exact hrest.closed (List.cons_ne_nil _ _)
    · intro hlen
      rw [List.length_cons] at hlen
      cases sizes with
      | nil =>
        have hmiddle : middle = [] := by
          obtain hshort | hnil := hshort
          · apply List.eq_nil_of_length_eq_zero
            simp only [List.length_nil] at hlen
            omega
          · exact hnil
        exact (hlast rfl).trans hmiddle
      | cons size' sizes =>
        refine hrest.ends (List.cons_ne_nil _ _) ?_
        obtain hshort | rfl := hshort
        · omega
        · exact Nat.zero_le _

/-- For every sequence of items that the scanner gives, and frames that each take any one of them: the lists of
successive calls are the items so far, each once and in their order, and `list_size` has grown by their sizes. While the
scanner is open the next item is kept, and it is the first of the next list; the call that gets to the end of the items
closes the scanner, after as many calls as there are items at the latest. -/
theorem listing_once (s : Stream) (sc : Scanner) (items : List Item) (sizes : List Nat) (hsc : s.scanner = some sc)
    (hitem : s.item = none) (hyields : sc.Yields s.uri.length items) (hfits : ∀ size ∈ sizes, s.Takes items size) :
    let (t, lists) := s.scanCalls sizes
    ∃ listed left, items = listed ++ left ∧ lists.flatten = listed.map s.entry ∧
      t.listSize ≡ s.listSize + (listed.map Item.size).sum [MOD 2 ^ 64] ∧
      (sizes ≠ [] → t.scanner ≠ none → ∃ i rest, left = i :: rest ∧ t.item = some i ∧
        ∀ size, s.Takes items size → (t.scanCall size).2.head? = some (s.entry i)) ∧
      (t.scanner = none → left = []) ∧ (sizes ≠ [] → left = [] → t.scanner = none) ∧
      (sizes ≠ [] → items.length ≤ sizes.length → t.scanner = none) := by
  have hunlisted : s.Unlisted items := by
    unfold Stream.Unlisted
    rw [hsc, hitem]
    exact hyields
  obtain ⟨listed, left, h⟩ := scanCalls_lists sizes hunlisted hfits
  refine ⟨listed, left, h.parts, h.list, h.size, fun hsome hopen => ?_, fun hclosed => ?_, h.closed,
    fun hsome hlen => ?_⟩
  · obtain ⟨hkept, hne⟩ := h.kept hsome hopen
    obtain ⟨i, rest, rfl⟩ := List.exists_cons_of_ne_nil hne
    obtain ⟨sc', hsc'⟩ := Option.ne_none_iff_exists'.mp hopen
    refine ⟨i, rest, rfl, hkept, fun size hfit => ?_⟩
    have hentry : (s.scanCalls sizes).1.entry i = s.entry i := by simp only [Stream.entry, h.uri]
    have hroom := hfit i (h.parts ▸ List.mem_append_right _ List.mem_cons_self)
    rw [scanCall_kept hsc' hkept, ← hentry]
    exact scanLoop_head (Nat.le_sub_of_add_le' (hentry ▸ hroom))
  · have hleft := h.unlisted
    unfold Stream.Unlisted at hleft
    rw [hclosed] at hleft
    exact hleft.2
  · exact h.closed hsome (h.ends hsome hlen)

/-- A directory with one file of one byte, in a frame for one entry and then in another. -/
theorem listing_once_file :
    let s : Stream := { upload := true, uri := [97], frameSize := 0, disk := .empty,
                        scanner := some (traverserInit [([98], .file [0])]) }
    (s.scanCalls [200, 200]).1.scanner = none := by
  have hyields : (traverserInit [([98], .file [0])]).Yields 1 [⟨false, [], 0⟩, ⟨true, [[98]], 1⟩] :=
    .next rfl (.next rfl (.stop rfl))
  obtain ⟨listed, left, -, -, -, -, -, -, hends⟩ := listing_once
    { upload := true, uri := [97], frameSize := 0, disk := .empty, scanner := some (traverserInit [([98], .file [0])]) }
    (traverserInit [([98], .file [0])]) _ [200, 200] rfl rfl hyields (by
      intro size hsize i hi
      simp only [List.mem_cons, List.not_mem_nil, or_false, or_self] at hsize hi
      subst hsize
      obtain rfl | rfl := hi <;> decide)
  exact hends (by decide) (by decide)

end Wenas.Xlio
