import EpochTable.Block.Links
import EpochTable.Proofs.CellContents

namespace EpochTable

variable {m m' : ItemMemory} {head next link : Option Item} {chain pre post : List Spill} {s : Spill}
  {item : Item} {items : List Item} {node : ItemNode} {c : LinkedCell} {cell : Cell}
  {key : UInt64} {limit : Nat} {place : Place} {slot : Slot} {e : Entry}

/-- At most these items have been written, and all items are still there. -/
structure ItemMemory.Writes (m m' : ItemMemory) (items : List Item) : Prop where
  others : ∀ x, x ∉ items → m'.node? x = m.node? x
  there : ∀ x, (m'.node? x).isSome = (m.node? x).isSome

theorem ItemMemory.writes_self (m : ItemMemory) (items : List Item) : m.Writes m items :=
  ⟨fun _ _ => rfl, fun _ => rfl⟩

theorem ItemMemory.Writes.subset {items' : List Item} (h : m.Writes m' items)
    (hsub : items ⊆ items') : m.Writes m' items' :=
  ⟨fun x hx => h.others x fun hin => hx (hsub hin), h.there⟩

theorem ItemMemory.Writes.of_mem (h : m.Writes m' [item]) (hmem : item ∈ items) : m.Writes m' items :=
  h.subset fun x hx => by rwa [List.mem_singleton.mp hx]

theorem ItemMemory.exists_write (h : m.node? item = some node) (change : ItemNode → ItemNode) :
    ∃ m', m.write item change = some m' ∧ m'.node? item = some (change node) ∧
      m.Writes m' [item] := by
  obtain ⟨nodes, hnodes, hnode⟩ := Option.bind_eq_some_iff.mp h
  have hread (x : Item) : ItemMemory.node? ⟨m.shelves.modify item.home fun nodes =>
      nodes.setIfInBounds item.index (change node)⟩ x
        = if x = item then some (change node) else m.node? x := by
    obtain ⟨hlt, hget⟩ := Vector.getElem?_eq_some_iff.mp hnode
    simp only [ItemMemory.node?, Array.getElem?_modify]
    by_cases hhome : item.home = x.home
    · rw [if_pos hhome, ← hhome, hnodes, Option.map_some, Option.bind_some, Option.bind_some,
        Vector.getElem?_setIfInBounds]
      by_cases hindex : item.index = x.index
      · have hx : x = item := by
          cases x
          cases item
          simp_all
        rw [if_pos hindex, if_pos hlt, if_pos hx]
      · have hx : x ≠ item := fun hx => hindex (hx ▸ rfl)
        rw [if_neg hindex, if_neg hx]
    · have hx : x ≠ item := fun hx => hhome (hx ▸ rfl)
      rw [if_neg hhome, if_neg hx]
  refine ⟨_, by rw [ItemMemory.write, h, Option.map_some], (hread item).trans (if_pos rfl), ?_⟩
  refine ⟨fun x hx => (hread x).trans (if_neg (by simpa using hx)), fun x => ?_⟩
  rw [hread]
  split
  next hx => rw [hx, h, Option.isSome_some, Option.isSome_some]
  next => rfl

/-- The items met from a link on, with what is stored in them, up to the end of the list. -/
inductive ItemMemory.Path (m : ItemMemory) : Option Item → List Spill → Prop
  | nil : Path m none []
  | cons {item : Item} {next : Option Item} {entry : Entry} {chain : List Spill}
      (node : m.node? item = some ⟨next, entry⟩) (rest : Path m next chain) :
      Path m (some item) (⟨item, entry⟩ :: chain)

theorem ItemMemory.Path.isSome_head (path : m.Path head chain) : head.isSome = !chain.isEmpty := by
  cases path <;> rfl

/-- Only the items of a list matter to it. -/
theorem ItemMemory.Path.congr (path : m.Path head chain)
    (same : ∀ x ∈ chain.map Spill.item, m'.node? x = m.node? x) : m'.Path head chain := by
  induction path with
  | nil => exact .nil
  | cons node _ ih =>
    obtain ⟨hfirst, hrest⟩ := List.forall_mem_cons.mp same
    exact .cons (hfirst.trans node) (ih hrest)

theorem ItemMemory.Path.frame (path : m.Path head chain) (writes : m.Writes m' items)
    (apart : items.Disjoint (chain.map Spill.item)) : m'.Path head chain :=
  path.congr fun x hx => writes.others x fun hin => apart hin hx

/-- An item of a list is there, and its link leads to the rest of the list. -/
theorem ItemMemory.Path.split (path : m.Path head (pre ++ s :: post)) :
    ∃ next, m.node? s.item = some ⟨next, s.entry⟩ ∧ m.Path next post := by
  induction pre generalizing head with
  | nil =>
    cases path with
    | cons node rest => exact ⟨_, node, rest⟩
  | cons first pre ih =>
    cases path with
    | cons node rest => exact ih rest

/-- Writing one item changes what is stored there and what comes after it. -/
theorem ItemMemory.Path.rewrite {later : List Spill} (path : m.Path head (pre ++ s :: post))
    (nodup : ((pre ++ [s]).map Spill.item).Nodup) (writes : m.Writes m' [s.item])
    (node : m'.node? s.item = some ⟨next, e⟩) (rest : m'.Path next later) :
    m'.Path head (pre ++ ⟨s.item, e⟩ :: later) := by
  induction pre generalizing head with
  | nil =>
    cases path with
    | cons => exact .cons node rest
  | cons first pre ih =>
    obtain ⟨hnew, hnodup⟩ := List.nodup_cons.mp nodup
    have hne : first.item ≠ s.item := fun heq => hnew (by simp [heq])
    cases path with
    | cons link others =>
      refine .cons ((writes.others _ ?_).trans link) (ih others hnodup)
      rwa [List.mem_singleton]

theorem ItemMemory.node?_fresh {shelves home index : Nat} (hhome : home < shelves)
    (hindex : index < shelfItems) :
    (ItemMemory.fresh shelves).node? ⟨home, index⟩ = some (ItemNode.fresh home index) := by
  simp [ItemMemory.node?, ItemMemory.fresh, hhome, hindex]

/-- The free items of a fresh shelf from one of them on. -/
theorem ItemMemory.path_fresh {shelves home : Nat} (hhome : home < shelves) (count : Nat) {index : Nat}
    (hindex : index + (count + 1) = shelfItems) :
    (ItemMemory.fresh shelves).Path (some ⟨home, index⟩)
      ((List.range' index (count + 1)).map fun index => ⟨⟨home, index⟩, ⟨0, 0⟩⟩) := by
  induction count generalizing index with
  | zero =>
    have hnode := ItemMemory.node?_fresh hhome (show index < shelfItems by omega)
    have hlast : ItemNode.fresh home index = ⟨none, ⟨0, 0⟩⟩ := by
      rw [ItemNode.fresh, if_neg (by omega)]
    exact .cons (hnode.trans (congrArg some hlast)) .nil
  | succ count ih =>
    have hnode := ItemMemory.node?_fresh hhome (show index < shelfItems by omega)
    have hnext : ItemNode.fresh home index = ⟨some ⟨home, index + 1⟩, ⟨0, 0⟩⟩ := by
      rw [ItemNode.fresh, if_pos (by omega)]
    rw [List.range'_succ, List.map_cons]
    exact .cons (hnode.trans (congrArg some hnext)) (ih (by omega))

theorem ItemMemory.Path.seek_none (path : m.Path head chain) (bound : chain.length ≤ limit)
    (absent : ∀ s ∈ chain, s.entry.key ≠ key) : m.seek key link head limit = some none := by
  induction path generalizing link limit with
  | nil => rw [ItemMemory.seek]
  | @cons item next entry chain node _ ih =>
    obtain ⟨hfirst, hrest⟩ := List.forall_mem_cons.mp absent
    cases limit with
    | zero => exact absurd bound (Nat.not_succ_le_zero _)
    | succ limit =>
      rw [ItemMemory.seek, node, Option.bind_some, if_neg hfirst]
      exact ih (Nat.le_of_succ_le_succ bound) hrest

theorem ItemMemory.Path.seek_some (path : m.Path head (pre ++ s :: post)) (bound : pre.length < limit)
    (absent : ∀ s ∈ pre, s.entry.key ≠ key) (found : s.entry.key = key) (link : Option Item) :
    m.seek key link head limit
      = some (some (.overflow ((pre.getLast?.map Spill.item).or link) s.item)) := by
  obtain ⟨limit, rfl⟩ : ∃ n, limit = n + 1 := ⟨limit - 1, by omega⟩
  induction pre generalizing head link limit with
  | nil =>
    cases path with
    | cons node _ =>
      rw [ItemMemory.seek, node, Option.bind_some, if_pos found]
      rfl
  | cons first pre ih =>
    obtain ⟨hfirst, hrest⟩ := List.forall_mem_cons.mp absent
    rw [List.length_cons] at bound
    cases path with
    | @cons item _ _ _ node rest =>
      rw [ItemMemory.seek, node, Option.bind_some, if_neg hfirst]
      obtain ⟨limit, rfl⟩ : ∃ n, limit = n + 1 := ⟨limit - 1, by omega⟩
      rw [ih rest hrest (some item) limit (by omega), List.getLast?_cons]
      cases pre.getLast? <;> rfl

theorem ItemMemory.Path.search_eq (path : m.Path head chain) :
    m.search key head limit = some (Spill.search key chain limit) := by
  induction path generalizing limit with
  | nil => rw [ItemMemory.search, Spill.search]
  | cons node _ ih =>
    cases limit with
    | zero => rw [ItemMemory.search, Spill.search]
    | succ limit =>
      rw [ItemMemory.search, Spill.search, node, Option.bind_some]
      split
      next => rfl
      next => exact ih

theorem ItemMemory.Path.collect_eq (path : m.Path head chain) (bound : chain.length ≤ limit) :
    m.collect head limit = some (chain.map Spill.entry) := by
  induction path generalizing limit with
  | nil => rw [ItemMemory.collect, List.map_nil]
  | cons node _ ih =>
    cases limit with
    | zero => exact absurd bound (Nat.not_succ_le_zero _)
    | succ limit =>
      rw [ItemMemory.collect, node, Option.bind_some, ih (Nat.le_of_succ_le_succ bound)]
      rfl

/-- In memory the cell is this one: its chain is what is met from its head on. -/
structure LinkedCell.Shows (c : LinkedCell) (m : ItemMemory) (cell : Cell) : Prop where
  word : c.word = cell.word
  slots : c.slots = cell.slots
  chain : m.Path c.head cell.chain

/-- The slot is at this place: an item, and the last one of those before it. -/
inductive Cell.Points (cell : Cell) : Place → Slot → Prop
  | inline (i : Nat) : Points cell (.inline i) (.inline i)
  | overflow {pre post : List Spill} {s : Spill} (chain : cell.chain = pre ++ s :: post) :
      Points cell (.overflow pre.length) (.overflow (pre.getLast?.map Spill.item) s.item)

theorem LinkedCell.Shows.frame (shows : c.Shows m cell) (writes : m.Writes m' items)
    (apart : items.Disjoint cell.items) : c.Shows m' cell :=
  ⟨shows.word, shows.slots, shows.chain.frame writes apart⟩

theorem LinkedCell.Shows.inlined (shows : c.Shows m cell) (w : CellWord) :
    c.unchained.inlined w = cell.inlined w := by
  rw [Cell.inlined, Cell.inlined, ← shows.slots]
  rfl

/-- The first item with a key, and the items before it. -/
theorem Spill.split_of_findIdx? {p : Nat} (h : chain.findIdx? (·.entry.key == key) = some p) :
    ∃ pre s post, chain = pre ++ s :: post ∧ pre.length = p ∧ s.entry.key = key ∧
      ∀ s ∈ pre, s.entry.key ≠ key := by
  obtain ⟨hlt, hkey, hbefore⟩ := List.findIdx?_eq_some_iff_getElem.mp h
  refine ⟨chain.take p, chain[p], chain.drop (p + 1), ?_, ?_, beq_iff_eq.mp hkey, fun s hs => ?_⟩
  · rw [List.getElem_cons_drop, List.take_append_drop]
  · rw [List.length_take]
    omega
  · obtain ⟨j, hj, rfl⟩ := List.mem_take_iff_getElem.mp hs
    simpa using hbefore j (by omega)

theorem LinkedCell.Shows.locate (shows : c.Shows m cell) (bound : cell.chain.length ≤ limit)
    (held : CellWord) (key : UInt64) : ∃ found, c.locate m held key limit = some found ∧
      Option.Rel cell.Points (cell.locate held key) found := by
  rw [LinkedCell.locate, Cell.locate, shows.inlined]
  cases (cell.inlined held).findIdx? (·.key == key) with
  | some i => exact ⟨_, rfl, .some (.inline i)⟩
  | none =>
    cases hfind : cell.chain.findIdx? (·.entry.key == key) with
    | none =>
      refine ⟨none, shows.chain.seek_none bound fun s hs => ?_, .none⟩
      simpa using List.findIdx?_eq_none_iff.mp hfind s hs
    | some p =>
      obtain ⟨pre, s, post, hchain, rfl, hkey, hbefore⟩ := Spill.split_of_findIdx? hfind
      have hlt : pre.length < limit := by
        rw [hchain, List.length_append, List.length_cons] at bound
        omega
      have hseek := (hchain ▸ shows.chain).seek_some hlt hbefore hkey none
      rw [Option.or_none] at hseek
      exact ⟨_, hseek, .some (.overflow hchain)⟩

theorem LinkedCell.Shows.valueAt (shows : c.Shows m cell) (points : cell.Points place slot) :
    c.valueAt m slot = cell.valueAt place := by
  cases points with
  | inline i => rw [LinkedCell.valueAt, shows.slots, Cell.valueAt, Cell.entryAt]
  | overflow chain =>
    obtain ⟨next, hnode, _⟩ := (chain ▸ shows.chain).split
    simp [LinkedCell.valueAt, Cell.valueAt, Cell.entryAt, hnode, chain]

theorem LinkedCell.Shows.read (shows : c.Shows m cell) (key : UInt64) (limit : Nat) :
    c.read m key limit = some (cell.read key limit) := by
  rw [LinkedCell.read, Cell.read, shows.inlined, shows.word, shows.chain.search_eq]
  split
  next => rfl
  next =>
    cases (cell.inlined cell.word).find? (·.key == key) with
    | some e => rfl
    | none => cases Spill.search key cell.chain limit <;> rfl

theorem LinkedCell.Shows.entries (shows : c.Shows m cell) (bound : cell.chain.length ≤ limit)
    (w : CellWord) : c.entries m w limit = some (cell.entries w) := by
  rw [LinkedCell.entries, shows.inlined, shows.chain.collect_eq bound]
  rfl

theorem LinkedCell.Shows.setWord (shows : c.Shows m cell) (w : CellWord) :
    LinkedCell.Shows { c with word := w } m { cell with word := w } :=
  ⟨rfl, shows.slots, shows.chain⟩

theorem LinkedCell.Shows.pushInline (shows : c.Shows m cell) (held : CellWord) (e : Entry) :
    (c.pushInline held e).1.Shows m (cell.pushInline held e).1 := by
  have hslots : (c.unchained.fillSlot held.count e).slots = (cell.fillSlot held.count e).slots := by
    simp only [Cell.fillSlot, LinkedCell.unchained, shows.slots]
    split <;> rfl
  have hword : (cell.fillSlot held.count e).word = cell.word := by
    unfold Cell.fillSlot
    split <;> rfl
  exact ⟨shows.word.trans hword.symm, hslots, (cell.chain_fillSlot held.count e).symm ▸ shows.chain⟩

theorem LinkedCell.Shows.pushOverflow (shows : c.Shows m cell) (there : m.node? item = some node)
    (outside : item ∉ cell.items) (held : CellWord) (e : Entry) :
    ∃ c' m', c.pushOverflow m held item e = some (c', m', (cell.pushOverflow held item e).2) ∧
      c'.Shows m' (cell.pushOverflow held item e).1 ∧ m.Writes m' [item] := by
  obtain ⟨m', hwrite, hnode, hwrites⟩ := ItemMemory.exists_write there fun _ => ⟨c.head, e⟩
  have hpush : c.pushOverflow m held item e
      = some ({ c with head := some item }, m', held.withOverflow true) := by
    rw [LinkedCell.pushOverflow, hwrite, Option.map_some]
  have hrest := shows.chain.frame hwrites (List.singleton_disjoint.mpr outside)
  exact ⟨_, m', hpush, ⟨shows.word, shows.slots, .cons hnode hrest⟩, hwrites⟩

theorem Spill.nodup_split (h : ((pre ++ s :: post).map Spill.item).Nodup) :
    ((pre ++ [s]).map Spill.item).Nodup ∧ s.item ∉ post.map Spill.item := by
  have hsub : (pre ++ [s]).Sublist (pre ++ s :: post) :=
    (List.singleton_sublist.mpr List.mem_cons_self).append_left pre
  refine ⟨h.sublist (hsub.map Spill.item), fun hmem => ?_⟩
  rw [List.map_append, List.map_cons, List.nodup_middle, List.nodup_cons] at h
  exact h.1 (List.mem_append_right _ hmem)

theorem LinkedCell.Shows.writeValue (shows : c.Shows m cell) (nodup : cell.items.Nodup)
    (points : cell.Points place slot) (value : UInt64) :
    ∃ c' m', c.writeValue m value slot = some (c', m') ∧ c'.Shows m' (cell.writeValue value place) ∧
      m.Writes m' cell.items := by
  cases points with
  | inline i =>
    refine ⟨_, m, rfl, ⟨shows.word, ?_, shows.chain⟩, m.writes_self _⟩
    simp only [Cell.writeValue, shows.slots]
  | @overflow pre post s chain =>
    have hpath := chain ▸ shows.chain
    have hitems : cell.items = (pre ++ s :: post).map Spill.item := by rw [Cell.items, chain]
    obtain ⟨hnodup, hnew⟩ := Spill.nodup_split (hitems ▸ nodup)
    obtain ⟨next, hnode, hpost⟩ := hpath.split
    obtain ⟨m', hwrite, hwritten, hwrites⟩ := ItemMemory.exists_write hnode
      fun node => { node with entry := node.entry.withValue value }
    have hvalue : c.writeValue m value (.overflow (pre.getLast?.map Spill.item) s.item)
        = some (c, m') := by
      rw [LinkedCell.writeValue, hwrite, Option.map_some]
    have hchain : (cell.writeValue value (.overflow pre.length)).chain
        = pre ++ s.withValue value :: post := by
      simp only [Cell.writeValue, chain, modify_append_cons]
    refine ⟨c, m', hvalue, ⟨shows.word, shows.slots, ?_⟩, hwrites.of_mem ?_⟩
    · rw [hchain]
      exact hpath.rewrite hnodup hwrites hwritten
        (hpost.frame hwrites (List.singleton_disjoint.mpr hnew))
    · rw [hitems]
      exact List.mem_map_of_mem (by simp)

/-- Unlinking an item writes the link that leads to it and nothing else. -/
theorem LinkedCell.exists_setLink (path : m.Path c.head (pre ++ s :: post))
    (nodup : ((pre ++ s :: post).map Spill.item).Nodup) (rest : m.Path next post) :
    ∃ head m', c.setLink m (pre.getLast?.map Spill.item) next = some ({ c with head := head }, m') ∧
      m'.Path head (pre ++ post) ∧ m.Writes m' (pre.map Spill.item) := by
  rcases List.eq_nil_or_concat' pre with rfl | ⟨front, before, rfl⟩
  · exact ⟨next, m, rfl, rest, m.writes_self _⟩
  · rw [List.append_assoc, List.singleton_append] at path nodup
    obtain ⟨hnodup, hnew⟩ := Spill.nodup_split nodup
    obtain ⟨_, hnode, _⟩ := path.split
    obtain ⟨m', hwrite, hwritten, hwrites⟩ := ItemMemory.exists_write hnode
      fun node => { node with next := next }
    have hapart : before.item ∉ post.map Spill.item := fun hmem => hnew (List.mem_cons_of_mem _ hmem)
    have hrest := rest.frame hwrites (List.singleton_disjoint.mpr hapart)
    refine ⟨c.head, m', ?_, ?_, hwrites.of_mem (List.mem_map_of_mem (by simp))⟩
    · rw [List.getLast?_concat, Option.map_some, LinkedCell.setLink, hwrite, Option.map_some]
    · rw [List.append_assoc, List.singleton_append]
      exact path.rewrite hnodup hwrites hwritten hrest

/-- Without a chain the cell is all there is. -/
theorem LinkedCell.Shows.remove_last (shows : c.Shows m cell) (empty : cell.chain = [])
    (held : CellWord) (i : Nat) :
    ∃ c', c.remove m held (.inline i) = some (c', m, (cell.remove held (.inline i)).2) ∧
      c'.Shows m (cell.remove held (.inline i)).1 := by
  have hpath := shows.chain
  have hcell : c.unchained = cell := by rw [LinkedCell.unchained, shows.word, shows.slots, ← empty]
  have hhead : c.head = none := by simpa [empty] using hpath.isSome_head
  have hremove : c.remove m held (.inline i)
      = some ({ c with slots := (cell.remove held (.inline i)).1.slots }, m,
        (cell.remove held (.inline i)).2) := by
    simp only [LinkedCell.remove, hhead, hcell, Cell.remove, empty]
  refine ⟨_, hremove, ?_⟩
  simp only [Cell.remove, empty]
  exact ⟨shows.word, rfl, empty ▸ hpath⟩

theorem LinkedCell.Shows.remove_head (shows : c.Shows m cell) {first : Spill} {rest : List Spill}
    (chain : cell.chain = first :: rest) (held : CellWord) (i : Nat) :
    ∃ c', c.remove m held (.inline i) = some (c', m, (cell.remove held (.inline i)).2) ∧
      c'.Shows m (cell.remove held (.inline i)).1 := by
  have hpath := chain ▸ shows.chain
  generalize hhead : c.head = head at hpath
  cases hpath with
  | @cons item next entry _ node hrest =>
    have hremove : c.remove m held (.inline i)
        = some ({ c with slots := c.slots.set i entry, head := next }, m,
          (cell.remove held (.inline i)).2) := by
      simp only [LinkedCell.remove, hhead, node, Option.map_some, Cell.remove, chain, hrest.isSome_head]
    refine ⟨_, hremove, ?_⟩
    simp only [Cell.remove, chain]
    exact ⟨shows.word, by rw [shows.slots], hrest⟩

theorem LinkedCell.Shows.remove_overflow (shows : c.Shows m cell) (nodup : cell.items.Nodup)
    (chain : cell.chain = pre ++ s :: post) (held : CellWord) :
    ∃ c' m', c.remove m held (.overflow (pre.getLast?.map Spill.item) s.item)
        = some (c', m', (cell.remove held (.overflow pre.length)).2) ∧
      c'.Shows m' (cell.remove held (.overflow pre.length)).1 ∧ m.Writes m' cell.items := by
  have hpath := chain ▸ shows.chain
  have hitems : cell.items = (pre ++ s :: post).map Spill.item := by rw [Cell.items, chain]
  obtain ⟨next, hnode, hpost⟩ := hpath.split
  obtain ⟨head, m', hset, hnew, hwrites⟩ := LinkedCell.exists_setLink hpath (hitems ▸ nodup) hpost
  have hleft : cell.chain.eraseIdx pre.length = pre ++ post := by
    rw [chain, List.eraseIdx_append_of_length_le (Nat.le_refl _), Nat.sub_self,
      List.eraseIdx_cons_zero]
  have hfreed : cell.chain[pre.length]? = some s := by simp [chain]
  have hremove : c.remove m held (.overflow (pre.getLast?.map Spill.item) s.item)
      = some ({ c with head := head }, m', (cell.remove held (.overflow pre.length)).2) := by
    simp only [LinkedCell.remove, hnode, hset, Option.bind_some, Option.map_some, hnew.isSome_head,
      Cell.remove, hleft, hfreed]
  refine ⟨_, m', hremove, ?_, hwrites.subset ?_⟩
  · simp only [Cell.remove, hleft]
    exact ⟨shows.word, shows.slots, hnew⟩
  · rw [hitems]
    exact List.map_subset _ (List.subset_append_left _ _)

theorem LinkedCell.Shows.remove (shows : c.Shows m cell) (nodup : cell.items.Nodup)
    (points : cell.Points place slot) (held : CellWord) :
    ∃ c' m', c.remove m held slot = some (c', m', (cell.remove held place).2) ∧
      c'.Shows m' (cell.remove held place).1 ∧ m.Writes m' cell.items := by
  cases points with
  | inline i =>
    cases hchain : cell.chain with
    | nil =>
      obtain ⟨c', hremove, hshows⟩ := shows.remove_last hchain held i
      exact ⟨c', m, hremove, hshows, m.writes_self _⟩
    | cons first rest =>
      obtain ⟨c', hremove, hshows⟩ := shows.remove_head hchain held i
      exact ⟨c', m, hremove, hshows, m.writes_self _⟩
  | overflow chain => exact shows.remove_overflow nodup chain held

end EpochTable
