import Mathlib.Data.List.Infix
import Srcinv.Collect.GlobalData
import Srcinv.Lib.Layout
import Srcinv.Lib.Listing
import Srcinv.Lib.Places

/-!
# The walk over the compiler's objects (`collect/gcc/c.cc`)

The `do_` functions go through the objects of the compiler.  A pointer is followed unless its object
has an entry in the table, a location is expanded into an object of its own.  The roots are the
declarations of the symbol table, then the GCC globals.

* `doNode_walked` — **what a walk appends to the table is a listing of the objects it reaches.**
* `doNode_room` — a walk ends, at the latest when the table is full.
* `doNode_stops` — it stops at an object only if that is reached and fails a check.
* `astCollect_listing` — the table after the roots and the globals.
* `astCollect_reached` — **it has what can be reached from the roots, each object once, and one
  location for each location slot.**
-/

namespace Srcinv.Collect

open Srcinv.Lib

/-! ## The objects -/

/-- The first address that stands for a location in the table, above those of objects. -/
def LOCATION_MIN : Nat := 0x800000000000

def SIZEOF_EXPANDED_LOCATION : Nat := 32

/-- A place of an object that the `do_` functions go through: a pointer, or a `location_t`. -/
inductive Slot where
  | ptr (addr : Nat)
  | loc (line : Nat)
  deriving DecidableEq, Repr

/-- `expanded_location`: its `file`, and the other bytes. -/
structure ExpandedLocation where
  file : Nat
  rest : List UInt8
  deriving DecidableEq, Repr

/-- The bytes of an object: its slots, in the order in which its `do_` function goes through them,
    and the other bytes. -/
structure Cell where
  slots : List Slot
  rest : List UInt8
  deriving DecidableEq, Repr

/-- The objects of the compiler, and how many bytes are copied for each.  Those that a location
    names are strings; `mem_write_path` copies the path that such a name resolves to.  `bug` is for
    an object that a check of its `do_` function fails for: at once for a code that `do_tree` does
    not know, an empty list or a name that `realpath` finds nothing for, otherwise after the object
    was written and some slots were gone through. -/
structure GccHeap where
  cell : Nat → Cell
  size : Nat → Nat
  bug : Nat → Option Nat
  expandLocation : Nat → ExpandedLocation
  ptr_lt : ∀ a addr, Slot.ptr addr ∈ (cell a).slots → addr < LOCATION_MIN
  file_lt : ∀ line, (expandLocation line).file < LOCATION_MIN
  file_leaf : ∀ line, (cell (expandLocation line).file).slots = []

/-- What gets an entry with bytes: the object at an address, or an expanded location. -/
abbrev Node := Link Nat ExpandedLocation

namespace GccHeap

variable (h : GccHeap)

/-- What a slot leads to. -/
def link : Slot → Node
  | .ptr addr => .shared addr
  | .loc line => .own (h.expandLocation line)

/-- The bytes of a node. -/
def content : Node → Cell
  | .shared addr => h.cell addr
  | .own xloc => ⟨[.ptr xloc.file], xloc.rest⟩

/-- The slots of an object up to the check that fails. -/
def visited (a : Nat) : List Slot :=
  match h.bug a with
  | none => (h.cell a).slots
  | some steps => (h.cell a).slots.take (steps - 1)

/-- What the slots of a node lead to. -/
def below (n : Node) : List Node := (h.content n).slots.map h.link

/-- A node that slots may lead to. -/
def Proper : Node → Prop
  | .shared addr => addr < LOCATION_MIN
  | .own xloc => ∃ line, xloc = h.expandLocation line

end GccHeap

/-! ## The table -/

/-- An entry of `objs`, and whose bytes were copied for it. -/
structure Entry where
  obj : FileObj
  copy : Option Node
  deriving DecidableEq, Repr

/-- `objs[i].gcc_global_varidx = idx`. -/
def Entry.withTag (idx : Nat) (e : Entry) : Entry :=
  { e with obj := { e.obj with gccGlobalVaridx := idx } }

/-- `objs`, `mem_ptr - nodes_mem` and `xloc_addr`. -/
structure Collected where
  entries : List Entry
  memPtr : Nat
  xlocAddr : Nat

/-- The `BUG()` of a full table, that of a full buffer, and those about an object; `room` is the
    end of the recursion.  `insert_obj` does not look at the end of the table, so that a location
    behind it would overwrite what is next to the table; here this is a stop. -/
inductive Stop where
  | objs
  | nodesMem
  | object (addr : Nat)
  | room
  deriving DecidableEq, Repr

namespace Collected

def objs (c : Collected) : List FileObj := c.entries.map Entry.obj

/-- `insert_obj`. -/
def insertObj (c : Collected) (obj : FileObj) (copy : Option Node) : Except Stop Collected :=
  if c.entries.length < MAX_OBJS_PER_FILE then
    .ok { c with entries := c.entries ++ [⟨obj, copy⟩] }
  else .error .objs

/-- `mem_write`, for a node of `size` bytes. -/
def memWrite (c : Collected) (addr size : Nat) (node : Node) : Except Stop Collected :=
  (c.insertObj { FileObj.zero with fakeAddr := addr % 2 ^ 48, size := size % 2 ^ 32 } node).bind
    fun c =>
      if c.memPtr + size > MAX_SIZE_PER_FILE then .error .nodesMem
      else .ok { c with memPtr := c.memPtr + size }

/-- `mem_write_loc`. -/
def memWriteLoc (c : Collected) (xloc : ExpandedLocation) : Except Stop Collected :=
  (c.memWrite c.xlocAddr SIZEOF_EXPANDED_LOCATION (.own xloc)).map fun c =>
    { c with xlocAddr := c.xlocAddr - 1 }

end Collected

/-- A `do_` function for an object without an entry: the object is written, and its slots are gone
    through, up to the check that fails. -/
def GccHeap.enter (h : GccHeap) (next : Node → Collected → Except Stop Collected) (obj : Nat)
    (c : Collected) : Except Stop Collected :=
  if h.bug obj = some 0 then .error (.object obj)
  else
    (c.memWrite obj (h.size obj) (.shared obj)).bind fun c =>
      ((h.visited obj).foldlM (fun c s => next (h.link s) c) c).bind fun c =>
        if (h.bug obj).isSome then .error (.object obj) else .ok c

/-- The `do_` function of an object, and `do_location`.  Each call below another one has taken an
    entry, so that one call more than there are entries has room. -/
def doNode (h : GccHeap) : Nat → Node → Collected → Except Stop Collected
  | 0, _, _ => .error .room
  | room + 1, .shared obj, c =>
    match isObjChecked c.objs obj with
    | none => .error .objs
    | some true => .ok c
    | some false => h.enter (doNode h room) obj c
  | room + 1, .own xloc, c => (c.memWriteLoc xloc).bind fun c => doNode h room (.shared xloc.file) c

/-- `do_tree`. -/
def doTree (h : GccHeap) (node : Nat) (c : Collected) : Except Stop Collected :=
  doNode h (MAX_OBJS_PER_FILE + 1) (.shared node) c

/-- `do_global_tree`. -/
def GccHeap.doGlobalTree (h : GccHeap) (c : Collected) (obj idx : Nat) : Except Stop Collected :=
  match isObjChecked c.objs obj with
  | none => .error .objs
  | some true =>
    c.insertObj { FileObj.zero with fakeAddr := obj % 2 ^ 48, gccGlobalVaridx := idx } none
  | some false =>
    (doTree h obj c).bind fun c' =>
      if c.entries.length ≥ c'.entries.length then .error .objs
      else .ok { c' with entries := c'.entries.modify c.entries.length (Entry.withTag idx) }

/-- The loops of `collect_global_data`, one after the other. -/
def GccHeap.collectGlobalData (h : GccHeap) : Collected → Nat → List Nat → Except Stop Collected
  | c, _, [] => .ok c
  | c, idx, obj :: rest =>
    (h.doGlobalTree c obj idx).bind fun c => h.collectGlobalData c ((idx + 1) % 2 ^ 16) rest

/-- What the collector starts from.  Roots are user space addresses. -/
structure Roots where
  decls : List Nat
  globals : GccGlobals
  decl_lt : ∀ d ∈ decls, d < LOCATION_MIN
  global_lt : ∀ g ∈ globals.all, g < LOCATION_MIN

/-- `ast_collect`, up to `nodes_flush`. -/
def astCollect (h : GccHeap) (roots : Roots) (memPtrStart : Nat) : Except Stop Collected :=
  (roots.decls.foldlM (fun c decl => doTree h decl c) ⟨[], memPtrStart, 2 ^ 64 - 1⟩).bind
    fun c => h.collectGlobalData c 1 roots.globals.all

/-! ## What the table has -/

/-- The node that was copied for an entry. -/
def nodeAt (entries : List Entry) (i : Nat) : Option Node := (entries[i]?).bind Entry.copy

/-- An entry is that of an object, that of a location, or one without bytes for a global that is
    NULL or has an entry already. -/
def Entry.Right (h : GccHeap) (node : Nat → Option Node) (i : Nat) (e : Entry) : Prop :=
  e.obj.realAddr = 0 ∧
    match e.copy with
    | some (.shared a) => a ≠ 0 ∧ a < LOCATION_MIN ∧ e.obj.fakeAddr = a ∧ e.obj.size = h.size a
    | some (.own xloc) => h.Proper (.own xloc) ∧ LOCATION_MIN ≤ e.obj.fakeAddr ∧
        e.obj.size = SIZEOF_EXPANDED_LOCATION
    | none => e.obj.size = 0 ∧ e.obj.gccGlobalVaridx ≠ 0 ∧
        (e.obj.fakeAddr = 0 ∨ ∃ j < i, node j = some (.shared e.obj.fakeAddr))

/-- **What holds of the table all along.** -/
structure Collected.Ok (h : GccHeap) (c : Collected) : Prop where
  right : ∀ (i : Nat) (e : Entry), c.entries[i]? = some e → e.Right h (nodeAt c.entries) i
  once : Listing.Once (nodeAt c.entries)
  xloc_lt : c.xlocAddr < 2 ^ 64
  xloc_ge : 2 ^ 64 ≤ c.xlocAddr + c.entries.length + 1
  count : c.entries.length ≤ MAX_OBJS_PER_FILE
  sizes : (c.objs.map FileObj.size).sum ≤ c.memPtr
  memory : c.memPtr ≤ MAX_SIZE_PER_FILE

/-- No check fails for an object that has an entry. -/
def Collected.Passed (h : GccHeap) (c : Collected) : Prop :=
  ∀ i a, nodeAt c.entries i = some (.shared a) → h.bug a = none

section Table

variable {h : GccHeap} {c c' : Collected} {e : Entry} {es : List Entry} {i a : Nat}
  {n : Node}

theorem nodeAt_append (h : i < es.length) (es' : List Entry) :
    nodeAt (es ++ es') i = nodeAt es i := by
  unfold nodeAt
  rw [List.getElem?_append_left h]

theorem nodeAt_length (es : List Entry) (e : Entry) : nodeAt (es ++ [e]) es.length = e.copy := by
  unfold nodeAt
  rw [List.getElem?_concat_length, Option.bind_some]

theorem nodeAt_lt (h : nodeAt es i = some n) : i < es.length := by
  obtain ⟨e, he, -⟩ := Option.bind_eq_some_iff.mp h
  exact (List.getElem?_eq_some_iff.mp he).1

/-- A node of a table that is one longer. -/
theorem nodeAt_snoc : nodeAt (es ++ [e]) i = some n ↔
    nodeAt es i = some n ∨ i = es.length ∧ e.copy = some n := by
  unfold nodeAt
  constructor
  · intro hn
    obtain ⟨e', he', hn⟩ := Option.bind_eq_some_iff.mp hn
    rcases getElem?_snoc.mp he' with hold | ⟨rfl, rfl⟩
    · exact Or.inl (by rw [hold, Option.bind_some, hn])
    · exact Or.inr ⟨rfl, hn⟩
  · rintro (hn | ⟨rfl, hn⟩)
    · obtain ⟨e', he', hn⟩ := Option.bind_eq_some_iff.mp hn
      rw [getElem?_snoc.mpr (Or.inl he'), Option.bind_some, hn]
    · rw [List.getElem?_concat_length, Option.bind_some, hn]

theorem Entry.Right.mono {node node' : Nat → Option Node} (hr : e.Right h node i)
    (hnode : ∀ j < i, ∀ n, node j = some n → node' j = some n) : e.Right h node' i := by
  obtain ⟨hreal, hr⟩ := hr
  refine ⟨hreal, ?_⟩
  cases hcopy : e.copy with
  | some n => cases n <;> simpa only [hcopy] using hr
  | none =>
    simp only [hcopy] at hr ⊢
    obtain ⟨hsize, htag, hfake⟩ := hr
    exact ⟨hsize, htag, hfake.imp_right fun ⟨j, hj, hn⟩ => ⟨j, hj, hnode j hj _ hn⟩⟩

/-- The entry of an object says where it was. -/
theorem Collected.Ok.fakeAddr (hc : c.Ok h) (ha : a ≠ 0) (hlt : a < LOCATION_MIN)
    (he : c.entries[i]? = some e) (hfake : e.obj.fakeAddr = a) :
    ∃ j, nodeAt c.entries j = some (.shared a) := by
  obtain ⟨-, hr⟩ := hc.right i e he
  cases hcopy : e.copy with
  | none =>
    simp only [hcopy, hfake] at hr
    obtain ⟨-, -, h0 | ⟨j, -, hj⟩⟩ := hr
    · exact absurd h0 ha
    · exact ⟨j, hj⟩
  | some n =>
    cases n with
    | shared b =>
      simp only [hcopy] at hr
      refine ⟨i, ?_⟩
      unfold nodeAt
      rw [he, Option.bind_some, hcopy, ← hfake, hr.2.2.1]
    | own xloc =>
      simp only [hcopy] at hr
      omega

/-- `is_obj_checked` looks an object up. -/
theorem Collected.Ok.isObjChecked_iff (hc : c.Ok h) (ha : a ≠ 0) (hlt : a < LOCATION_MIN) {b : Bool}
    (hb : isObjChecked c.objs a = some b) :
    b = true ↔ ∃ j, nodeAt c.entries j = some (.shared a) := by
  rw [isObjChecked_eq ha hb]
  constructor
  · rintro ⟨o, ho, hfake⟩
    obtain ⟨e, he, rfl⟩ := List.mem_map.mp ho
    obtain ⟨i, hi⟩ := List.mem_iff_getElem?.mp he
    exact hc.fakeAddr ha hlt hi hfake
  · rintro ⟨j, hj⟩
    obtain ⟨e, he, hcopy⟩ := Option.bind_eq_some_iff.mp hj
    have hr := (hc.right j e he).2
    simp only [hcopy] at hr
    exact ⟨e.obj, List.mem_map_of_mem (List.mem_of_getElem? he), hr.2.2.1⟩

/-- A new entry, for an object that passes. -/
theorem Collected.Passed.snoc {c₁ : Collected} (hc : c.Passed h)
    (hent : c₁.entries = c.entries ++ [e])
    (hnew : ∀ a, e.copy = some (.shared a) → h.bug a = none) :
    c₁.Passed h := by
  intro i a hi
  rw [hent] at hi
  rcases nodeAt_snoc.mp hi with hold | ⟨-, hcopy⟩
  · exact hc i a hold
  · exact hnew a hcopy

/-- A new entry keeps the table right. -/
theorem Collected.Ok.snoc {memPtr xlocAddr : Nat} (hc : c.Ok h)
    (hr : e.Right h (nodeAt c.entries) c.entries.length)
    (hnew : ∀ a, e.copy = some (.shared a) → ∀ j, nodeAt c.entries j ≠ some (.shared a))
    (hcount : c.entries.length < MAX_OBJS_PER_FILE)
    (hxloc : xlocAddr ≤ c.xlocAddr) (hxloc' : c.xlocAddr ≤ xlocAddr + 1)
    (hsizes : (c.objs.map FileObj.size).sum + e.obj.size ≤ memPtr)
    (hmem : memPtr ≤ MAX_SIZE_PER_FILE) :
    Collected.Ok h ⟨c.entries ++ [e], memPtr, xlocAddr⟩ where
  right i e' he' := by
    rcases getElem?_snoc.mp he' with hold | ⟨rfl, rfl⟩
    · refine (hc.right i e' hold).mono fun j hj n hn => ?_
      exact nodeAt_snoc.mpr (Or.inl hn)
    · exact hr.mono fun j hj n hn => nodeAt_snoc.mpr (Or.inl hn)
  once a i j hi hj := by
    rcases nodeAt_snoc.mp hi with hold | ⟨rfl, hcopy⟩ <;>
      rcases nodeAt_snoc.mp hj with hold' | ⟨rfl, hcopy'⟩
    · exact hc.once a i j hold hold'
    · exact absurd hold (hnew a hcopy' i)
    · exact absurd hold' (hnew a hcopy j)
    · rfl
  xloc_lt := Nat.lt_of_le_of_lt hxloc hc.xloc_lt
  xloc_ge := by
    have := hc.xloc_ge
    simp only [List.length_append, List.length_singleton]
    omega
  count := by
    simp only [List.length_append, List.length_singleton]
    omega
  sizes := by
    simpa only [Collected.objs, List.map_append, List.map_cons, List.map_nil, List.sum_append,
      List.sum_singleton] using hsizes
  memory := hmem

end Table

/-! ## Walks -/

/-- **A walk through some links**: it appends a listing of what it finds new. -/
structure Walked (h : GccHeap) (c : Collected) (ls : List Node) (c' : Collected) : Prop where
  ok : c'.Ok h
  passed : c.Passed h → c'.Passed h
  grows : c.entries <+: c'.entries
  untagged : ∀ (i : Nat) (e : Entry), c.entries.length ≤ i → c'.entries[i]? = some e →
    e.obj.gccGlobalVaridx = 0
  listing : ∀ node, (∀ i < c'.entries.length, node i = nodeAt c'.entries i) →
    ∃ ps, Listing h.below 0 node c.entries.length ls ps c'.entries.length

section Walks

variable {h : GccHeap} {c c₁ c' c'' : Collected} {ls ls' : List Node} {e : Entry} {a : Nat}
  {xloc : ExpandedLocation}

/-- What was there before is still there. -/
theorem nodeAt_of_grows {es es' : List Entry} (hg : es <+: es') {i : Nat} (hi : i < es.length) :
    nodeAt es' i = nodeAt es i := by
  obtain ⟨t, rfl⟩ := hg
  exact nodeAt_append hi t

namespace Walked

theorem nil (hc : c.Ok h) : Walked h c [] c :=
  ⟨hc, id, List.prefix_rfl, fun i e hle he => by
    have := (List.getElem?_eq_some_iff.mp he).1
    omega, fun _ _ => ⟨[], .nil _⟩⟩

theorem le (hw : Walked h c ls c') : c.entries.length ≤ c'.entries.length := hw.grows.length_le

/-- One walk after the other. -/
theorem append (hw : Walked h c ls c') (hw' : Walked h c' ls' c'') :
    Walked h c (ls ++ ls') c'' where
  ok := hw'.ok
  passed hc := hw'.passed (hw.passed hc)
  grows := hw.grows.trans hw'.grows
  untagged i e hle he := by
    rcases Nat.lt_or_ge i c'.entries.length with hlt | hge
    · obtain ⟨t, ht⟩ := hw'.grows
      rw [← ht, List.getElem?_append_left hlt] at he
      exact hw.untagged i e hle he
    · exact hw'.untagged i e hge he
  listing node hnode := by
    have hle := hw'.le
    obtain ⟨ps, hps⟩ := hw.listing node fun i hi => by
      rw [hnode i (by omega), nodeAt_of_grows hw'.grows hi]
    obtain ⟨ps', hps'⟩ := hw'.listing node hnode
    exact ⟨ps ++ ps', hps.append hps'⟩

theorem null (hc : c.Ok h) : Walked h c [.shared 0] c :=
  { nil hc with listing := fun _ _ => ⟨[none], .null (.nil _)⟩ }

/-- The walk comes to an object that has an entry. -/
theorem seen {j : Nat} (hc : c.Ok h) (ha : a ≠ 0) (hj : nodeAt c.entries j = some (.shared a)) :
    Walked h c [.shared a] c :=
  { nil hc with
    listing := fun node hnode => by
      have hlt := nodeAt_lt hj
      exact ⟨[some j], .seen ha hlt ((hnode j hlt).trans hj) (.nil _)⟩ }

/-- A new entry, and what is found below its node. -/
theorem enter_grows (hent : c₁.entries = c.entries ++ [e])
    (hw : Walked h c₁ ls c') : c.entries <+: c'.entries :=
  (by rw [hent]; exact List.prefix_append _ _ : c.entries <+: c₁.entries).trans hw.grows

theorem enter_untagged (hent : c₁.entries = c.entries ++ [e])
    (htag : e.obj.gccGlobalVaridx = 0) (hw : Walked h c₁ ls c') (i : Nat) (e' : Entry)
    (hle : c.entries.length ≤ i) (he : c'.entries[i]? = some e') :
    e'.obj.gccGlobalVaridx = 0 := by
  rcases Nat.eq_or_lt_of_le hle with rfl | hlt
  · obtain ⟨t, ht⟩ := hw.grows
    rw [← ht, hent, List.append_assoc, List.getElem?_append_right (Nat.le_refl _),
      Nat.sub_self] at he
    cases he
    exact htag
  · exact hw.untagged i e' (by rw [hent, List.length_append]; exact hlt) he

theorem enter_node (hent : c₁.entries = c.entries ++ [e]) (hw : Walked h c₁ ls c')
    {node : Nat → Option Node} (hnode : ∀ i < c'.entries.length, node i = nodeAt c'.entries i) :
    node c.entries.length = e.copy ∧ c.entries.length + 1 = c₁.entries.length ∧
      ∀ i < c.entries.length, node i = nodeAt c.entries i := by
  have hlen : c.entries.length + 1 = c₁.entries.length := by rw [hent, List.length_append]; rfl
  have hle := hw.le
  refine ⟨?_, hlen, fun i hi => ?_⟩
  · rw [hnode _ (by omega), nodeAt_of_grows hw.grows (by omega), hent, nodeAt_length]
  · rw [hnode i (by omega), nodeAt_of_grows hw.grows (by omega), hent, nodeAt_append hi]

/-- **The walk enters an object.** -/
theorem enter (ha : a ≠ 0) (hnew : ∀ j, nodeAt c.entries j ≠ some (.shared a))
    (hbug : h.bug a = none) (hent : c₁.entries = c.entries ++ [e])
    (hcopy : e.copy = some (.shared a)) (htag : e.obj.gccGlobalVaridx = 0)
    (hw : Walked h c₁ (h.below (.shared a)) c') : Walked h c [.shared a] c' where
  ok := hw.ok
  passed hc := hw.passed (hc.snoc hent fun b hb => by
    rw [hcopy] at hb
    cases hb
    exact hbug)
  grows := enter_grows hent hw
  untagged := enter_untagged hent htag hw
  listing node hnode := by
    obtain ⟨hk, hlen, hold⟩ := enter_node hent hw hnode
    obtain ⟨qs, hqs⟩ := hw.listing node hnode
    exact ⟨[some c.entries.length], .enter ha (fun i hi => by rw [hold i hi]; exact hnew i)
      (hk.trans hcopy) (hlen ▸ hqs) (.nil _)⟩

/-- **The walk enters a location.** -/
theorem own (hent : c₁.entries = c.entries ++ [e]) (hcopy : e.copy = some (.own xloc))
    (htag : e.obj.gccGlobalVaridx = 0) (hw : Walked h c₁ (h.below (.own xloc)) c') :
    Walked h c [.own xloc] c' where
  ok := hw.ok
  passed hc := hw.passed (hc.snoc hent fun b hb => by
    rw [hcopy] at hb
    cases hb)
  grows := enter_grows hent hw
  untagged := enter_untagged hent htag hw
  listing node hnode := by
    obtain ⟨hk, hlen, -⟩ := enter_node hent hw hnode
    obtain ⟨qs, hqs⟩ := hw.listing node hnode
    exact ⟨[some c.entries.length], .own (hk.trans hcopy) (hlen ▸ hqs) (.nil _)⟩

end Walked

/-- What `mem_write` does when it comes back. -/
theorem memWrite_ok {addr size : Nat} {n : Node} (hw : c.memWrite addr size n = .ok c₁) :
    c.entries.length < MAX_OBJS_PER_FILE ∧ c.memPtr + size ≤ MAX_SIZE_PER_FILE ∧
      c₁ = { c with
        entries := c.entries ++
          [⟨{ FileObj.zero with fakeAddr := addr % 2 ^ 48, size := size % 2 ^ 32 }, n⟩]
        memPtr := c.memPtr + size } := by
  unfold Collected.memWrite Collected.insertObj at hw
  split at hw
  · rename_i hcount
    simp only [Except.bind] at hw
    split at hw
    · cases hw
    · rename_i hmem
      cases hw
      exact ⟨hcount, Nat.le_of_not_gt hmem, rfl⟩
  · cases hw

/-- An object is written, and its table stays right. -/
theorem memWrite_shared (hc : c.Ok h) (ha : a ≠ 0) (hlt : a < LOCATION_MIN)
    (hnew : ∀ j, nodeAt c.entries j ≠ some (.shared a))
    (hw : c.memWrite a (h.size a) (.shared a) = .ok c₁) :
    c₁.Ok h ∧ ∃ e, c₁.entries = c.entries ++ [e] ∧ e.copy = some (.shared a) ∧
      e.obj.gccGlobalVaridx = 0 := by
  obtain ⟨hcount, hmem, rfl⟩ := memWrite_ok hw
  have hfake : a % 2 ^ 48 = a := Nat.mod_eq_of_lt (by simp only [LOCATION_MIN] at hlt; omega)
  have hsize : h.size a % 2 ^ 32 = h.size a :=
    Nat.mod_eq_of_lt (by simp only [MAX_SIZE_PER_FILE] at hmem; omega)
  have hsum := hc.sizes
  refine ⟨hc.snoc ⟨rfl, ha, hlt, hfake, hsize⟩ (fun b hb j => ?_) hcount (Nat.le_refl _)
    (Nat.le_succ _) (by simp only [hsize]; omega) hmem, _, rfl, rfl, rfl⟩
  cases hb
  exact hnew j

/-- A location is written. -/
theorem memWriteLoc_own (hc : c.Ok h) (hproper : h.Proper (.own xloc))
    (hw : c.memWriteLoc xloc = .ok c₁) :
    c₁.Ok h ∧ ∃ e, c₁.entries = c.entries ++ [e] ∧ e.copy = some (.own xloc) ∧
      e.obj.gccGlobalVaridx = 0 := by
  unfold Collected.memWriteLoc at hw
  cases hwrite : c.memWrite c.xlocAddr SIZEOF_EXPANDED_LOCATION (.own xloc) with
  | error s => simp [hwrite, Except.map] at hw
  | ok c₂ =>
    rw [hwrite] at hw
    cases hw
    obtain ⟨hcount, hmem, rfl⟩ := memWrite_ok hwrite
    have hge := hc.xloc_ge
    have hlt := hc.xloc_lt
    have hsum := hc.sizes
    have hfake : LOCATION_MIN ≤ c.xlocAddr % 2 ^ 48 := by
      simp only [LOCATION_MIN, MAX_OBJS_PER_FILE] at hcount ⊢
      omega
    refine ⟨hc.snoc ⟨rfl, hproper, hfake, rfl⟩ (fun b hb => (by cases hb)) hcount
      (Nat.sub_le _ _) (by simp only; omega) ?_ hmem, _, rfl, rfl, rfl⟩
    have hmod : SIZEOF_EXPANDED_LOCATION % 2 ^ 32 = SIZEOF_EXPANDED_LOCATION := rfl
    simp only [hmod]
    omega

end Walks

section DoNode

variable {h : GccHeap} {c c' : Collected} {n : Node}

theorem GccHeap.proper_link (h : GccHeap) {a : Nat} {s : Slot} (hs : s ∈ (h.cell a).slots) :
    h.Proper (h.link s) := by
  cases s with
  | ptr addr => exact h.ptr_lt a addr hs
  | loc line => exact ⟨line, rfl⟩

theorem GccHeap.mem_visited (h : GccHeap) {a : Nat} {s : Slot} (hs : s ∈ h.visited a) :
    s ∈ (h.cell a).slots := by
  unfold visited at hs
  split at hs
  · exact hs
  · exact List.mem_of_mem_take hs

/-- Calls for some slots, one after the other. -/
theorem foldlM_walked {room : Nat}
    (hsub : ∀ {n : Node} {c c' : Collected}, c.Ok h → h.Proper n → doNode h room n c = .ok c' →
      Walked h c [n] c') :
    ∀ {ss : List Slot} {c c' : Collected}, c.Ok h → (∀ s ∈ ss, h.Proper (h.link s)) →
      ss.foldlM (fun c s => doNode h room (h.link s) c) c = .ok c' →
      Walked h c (ss.map h.link) c'
  | [], c, c', hc, _, hw => by
    cases hw
    exact .nil hc
  | s :: ss, c, c', hc, hproper, hw => by
    rw [List.foldlM_cons] at hw
    cases hone : doNode h room (h.link s) c with
    | error e =>
      rw [hone] at hw
      cases hw
    | ok c₁ =>
      rw [hone] at hw
      have hfirst := hsub hc (hproper s List.mem_cons_self) hone
      have hrest := foldlM_walked hsub hfirst.ok
        (fun s' hs' => hproper s' (List.mem_cons_of_mem s hs')) hw
      exact hfirst.append hrest

/-- A call for an object without an entry comes back: no check fails, the object is written, and
    the calls for its slots come back. -/
theorem GccHeap.enter_ok {next : Node → Collected → Except Stop Collected} {a : Nat}
    (hw : h.enter next a c = .ok c') :
    h.bug a = none ∧ ∃ c₁, c.memWrite a (h.size a) (.shared a) = .ok c₁ ∧
      (h.cell a).slots.foldlM (fun c s => next (h.link s) c) c₁ = .ok c' := by
  unfold enter at hw
  split at hw
  · cases hw
  · cases hwrite : c.memWrite a (h.size a) (.shared a) with
    | error s =>
      rw [hwrite] at hw
      cases hw
    | ok c₁ =>
      rw [hwrite] at hw
      simp only [Except.bind] at hw
      cases hslots : (h.visited a).foldlM (fun c s => next (h.link s) c) c₁ with
      | error s =>
        rw [hslots] at hw
        cases hw
      | ok c₂ =>
        rw [hslots] at hw
        dsimp only at hw
        split at hw
        · cases hw
        · rename_i hsome
          cases hw
          have hbug : h.bug a = none := Option.not_isSome_iff_eq_none.mp hsome
          refine ⟨hbug, c₁, rfl, ?_⟩
          rwa [visited, hbug] at hslots

/-- **A call appends a listing of what can be reached and has no entry.** -/
theorem doNode_walked : ∀ (room : Nat) {n : Node} {c c' : Collected}, c.Ok h → h.Proper n →
    doNode h room n c = .ok c' → Walked h c [n] c'
  | room + 1, .shared a, c, c', hc, hproper, hw => by
    unfold doNode at hw
    by_cases ha : a = 0
    · subst ha
      cases hw
      exact .null hc
    · split at hw
      · cases hw
      · rename_i hchecked
        cases hw
        obtain ⟨j, hj⟩ := (hc.isObjChecked_iff ha hproper hchecked).mp rfl
        exact .seen hc ha hj
      · rename_i hchecked
        have hnew : ∀ j, nodeAt c.entries j ≠ some (.shared a) := fun j hj => by
          have := (hc.isObjChecked_iff ha hproper hchecked).mpr ⟨j, hj⟩
          cases this
        obtain ⟨hbug, c₁, hwrite, hslots⟩ := h.enter_ok hw
        obtain ⟨hc₁, e, hent, hcopy, htag⟩ := memWrite_shared hc ha hproper hnew hwrite
        exact .enter ha hnew hbug hent hcopy htag
          (foldlM_walked (doNode_walked room) hc₁ (fun s hs => h.proper_link hs) hslots)
  | room + 1, .own xloc, c, c', hc, hproper, hw => by
    unfold doNode at hw
    cases hwrite : c.memWriteLoc xloc with
    | error s =>
      rw [hwrite] at hw
      cases hw
    | ok c₁ =>
      rw [hwrite] at hw
      obtain ⟨hc₁, e, hent, hcopy, htag⟩ := memWriteLoc_own hc hproper hwrite
      obtain ⟨line, rfl⟩ := hproper
      exact .own hent hcopy htag (doNode_walked room hc₁ (h.file_lt line) hw)

/-! ### The walk ends -/

/-- A write stops for want of room in the table or in the buffer. -/
theorem memWrite_error {addr size : Nat} {e : Stop} (hw : c.memWrite addr size n = .error e) :
    e = .objs ∨ e = .nodesMem := by
  unfold Collected.memWrite Collected.insertObj at hw
  split at hw
  · simp only [Except.bind] at hw
    split at hw
    · exact Or.inr (Except.error.inj hw).symm
    · cases hw
  · exact Or.inl (Except.error.inj hw).symm

theorem memWriteLoc_error {xloc : ExpandedLocation} {e : Stop}
    (hw : c.memWriteLoc xloc = .error e) : e = .objs ∨ e = .nodesMem := by
  unfold Collected.memWriteLoc at hw
  cases hwrite : c.memWrite c.xlocAddr SIZEOF_EXPANDED_LOCATION (.own xloc) with
  | error e' =>
    rw [hwrite] at hw
    obtain rfl : e' = e := Except.error.inj hw
    exact memWrite_error hwrite
  | ok c₂ =>
    rw [hwrite] at hw
    cases hw

/-- Calls for some slots have room when each of them has. -/
theorem foldlM_room {room : Nat}
    (hsub : ∀ {n : Node} {c : Collected}, c.Ok h → h.Proper n →
      MAX_OBJS_PER_FILE < room + c.entries.length → doNode h room n c ≠ .error .room) :
    ∀ {ss : List Slot} {c : Collected}, c.Ok h → (∀ s ∈ ss, h.Proper (h.link s)) →
      MAX_OBJS_PER_FILE < room + c.entries.length →
      ss.foldlM (fun c s => doNode h room (h.link s) c) c ≠ .error .room
  | [], _, _, _, _ => fun hw => (by cases hw)
  | s :: ss, c, hc, hproper, hroom => by
    rw [List.foldlM_cons]
    have hs := hproper s List.mem_cons_self
    cases hone : doNode h room (h.link s) c with
    | error e =>
      intro hw
      have herr : e = .room := by simpa only [Bind.bind, Except.bind, Except.error.injEq] using hw
      exact hsub hc hs hroom (herr ▸ hone)
    | ok c₁ =>
      have hfirst := doNode_walked room hc hs hone
      have hle := hfirst.le
      exact foldlM_room hsub hfirst.ok (fun s' hs' => hproper s' (List.mem_cons_of_mem s hs'))
        (by omega)

/-- **The walk ends**: a call that has an entry for each call below it comes back, or stops at a
    full table or a full buffer. -/
theorem doNode_room : ∀ (room : Nat) {n : Node} {c : Collected}, c.Ok h → h.Proper n →
    MAX_OBJS_PER_FILE < room + c.entries.length → doNode h room n c ≠ .error .room
  | 0, _, c, hc, _, hroom => by
    have hcount := hc.count
    omega
  | room + 1, .shared a, c, hc, hproper, hroom => by
    unfold doNode
    split
    · exact fun hw => (by cases hw)
    · exact fun hw => (by cases hw)
    · rename_i hchecked
      have ha := isObjChecked_false hchecked
      have hnew : ∀ j, nodeAt c.entries j ≠ some (.shared a) := fun j hj => by
        have := (hc.isObjChecked_iff ha hproper hchecked).mpr ⟨j, hj⟩
        cases this
      unfold GccHeap.enter
      split
      · exact fun hw => (by cases hw)
      cases hwrite : c.memWrite a (h.size a) (.shared a) with
      | error e =>
        intro hw
        have herr : e = .room := by simpa only [Except.bind, Except.error.injEq] using hw
        rcases memWrite_error (herr ▸ hwrite) with hstop | hstop <;> cases hstop
      | ok c₁ =>
        obtain ⟨hc₁, e, hent, -⟩ := memWrite_shared hc ha hproper hnew hwrite
        have hslots : (h.visited a).foldlM (fun c s => doNode h room (h.link s) c) c₁ ≠
            .error .room :=
          foldlM_room (doNode_room room) hc₁ (fun s hs => h.proper_link (h.mem_visited hs))
            (by rw [hent, List.length_append, List.length_singleton]; omega)
        simp only [Except.bind]
        cases hrun : (h.visited a).foldlM (fun c s => doNode h room (h.link s) c) c₁ with
        | error e => exact fun hw => hslots (by rw [hrun]; exact hw)
        | ok c₂ =>
          dsimp only
          split <;> exact fun hw => (by cases hw)
  | room + 1, .own xloc, c, hc, hproper, hroom => by
    unfold doNode
    cases hwrite : c.memWriteLoc xloc with
    | error e =>
      intro hw
      have herr : e = .room := by simpa only [Except.bind, Except.error.injEq] using hw
      rcases memWriteLoc_error (herr ▸ hwrite) with hstop | hstop <;> cases hstop
    | ok c₁ =>
      obtain ⟨hc₁, e, hent, -⟩ := memWriteLoc_own hc hproper hwrite
      obtain ⟨line, rfl⟩ := hproper
      refine doNode_room room hc₁ (h.file_lt line) ?_
      rw [hent, List.length_append, List.length_singleton]
      omega

/-! ### The walk stops at an object -/

/-- A loop that stops has stopped at one of its places. -/
theorem foldlM_error {ε σ α : Type*} {f : σ → α → Except ε σ} {e : ε} :
    ∀ {as : List α} {s : σ}, as.foldlM f s = .error e → ∃ a ∈ as, ∃ s', f s' a = .error e
  | [], _, hw => by cases hw
  | a :: as, s, hw => by
    rw [List.foldlM_cons] at hw
    cases hone : f s a with
    | error e' =>
      rw [hone] at hw
      cases hw
      exact ⟨a, List.mem_cons_self, s, hone⟩
    | ok s₁ =>
      rw [hone] at hw
      obtain ⟨a', ha', s', hs'⟩ := foldlM_error hw
      exact ⟨a', List.mem_cons_of_mem a ha', s', hs'⟩

/-- An object that the walk from `n` stops at. -/
structure StopsAt (h : GccHeap) (n : Node) (a : Nat) : Prop where
  reached : Relation.ReflTransGen (Listing.Steps h.below 0) n (.shared a)
  ne : a ≠ 0
  bug : (h.bug a).isSome

theorem StopsAt.head {n m : Node} {a : Nat} (hs : StopsAt h m a)
    (hstep : Listing.Steps h.below 0 n m) : StopsAt h n a :=
  ⟨.head hstep hs.reached, hs.ne, hs.bug⟩

/-- **A walk that stops at an object has reached it, and a check fails for it.** -/
theorem doNode_stops : ∀ (room : Nat) {n : Node} {c : Collected} {a : Nat},
    doNode h room n c = .error (.object a) → StopsAt h n a
  | 0, _, _, _, hw => by cases hw
  | room + 1, .shared b, c, a, hw => by
    unfold doNode at hw
    split at hw
    · cases hw
    · cases hw
    · rename_i hchecked
      have hb := isObjChecked_false hchecked
      unfold GccHeap.enter at hw
      split at hw
      · rename_i hbug
        cases hw
        exact ⟨.refl, hb, by rw [hbug]; rfl⟩
      · cases hwrite : c.memWrite b (h.size b) (.shared b) with
        | error e =>
          rw [hwrite] at hw
          cases hw
          rcases memWrite_error hwrite with hstop | hstop <;> cases hstop
        | ok c₁ =>
          rw [hwrite] at hw
          simp only [Except.bind] at hw
          cases hslots : (h.visited b).foldlM (fun c s => doNode h room (h.link s) c) c₁ with
          | error e =>
            rw [hslots] at hw
            cases hw
            obtain ⟨s, hs, c', hs'⟩ := foldlM_error hslots
            exact (doNode_stops room hs').head
              ⟨fun heq => hb (Link.shared.inj heq), List.mem_map_of_mem (h.mem_visited hs)⟩
          | ok c₂ =>
            rw [hslots] at hw
            dsimp only at hw
            split at hw
            · rename_i hbug
              cases hw
              exact ⟨.refl, hb, hbug⟩
            · cases hw
  | room + 1, .own xloc, c, a, hw => by
    unfold doNode at hw
    cases hwrite : c.memWriteLoc xloc with
    | error e =>
      rw [hwrite] at hw
      cases hw
      rcases memWriteLoc_error hwrite with hstop | hstop <;> cases hstop
    | ok c₁ =>
      rw [hwrite] at hw
      exact (doNode_stops room hw).head ⟨fun heq => (by cases heq), List.mem_singleton.mpr rfl⟩

end DoNode

/-! ## The GCC globals -/

/-- The number of the global that an entry is tagged with. -/
def tagAt (entries : List Entry) (i : Nat) : Nat :=
  ((entries[i]?).map fun e => e.obj.gccGlobalVaridx).getD 0

/-- **What the globals `gs` append**: an entry without bytes, or a walk with its first entry
    tagged. -/
inductive GlobalsListed (h : GccHeap) (node : Nat → Option Node) (tag : Nat → Nat) :
    Nat → List Nat → Nat → Prop
  | nil (k : Nat) : GlobalsListed h node tag k [] k
  | bare {k k' g gs} (hg : g = 0 ∨ ∃ j < k, node j = some (.shared g)) (hnode : node k = none)
      (htag : tag k ≠ 0) (rest : GlobalsListed h node tag (k + 1) gs k') :
      GlobalsListed h node tag k (g :: gs) k'
  | walked {k k₁ k' g gs ps} (hlist : Listing h.below 0 node k [.shared g] ps k₁) (hlt : k < k₁)
      (htag : tag k ≠ 0) (hrest : ∀ i, k < i → i < k₁ → tag i = 0)
      (rest : GlobalsListed h node tag k₁ gs k') : GlobalsListed h node tag k (g :: gs) k'

section Globals

variable {h : GccHeap} {c c₁ c' : Collected} {es : List Entry} {i k obj idx : Nat}

theorem nodeAt_modify (es : List Entry) (k idx i : Nat) :
    nodeAt (es.modify k (Entry.withTag idx)) i = nodeAt es i := by
  unfold nodeAt
  rw [List.getElem?_modify]
  cases es[i]? with
  | none => rfl
  | some e =>
    simp only [Option.map_eq_map, Option.map_some, Option.bind_some]
    split <;> rfl

theorem getElem?_modify_cases {e : Entry}
    (he : (es.modify k (Entry.withTag idx))[i]? = some e) :
    ∃ e', es[i]? = some e' ∧ (e = e' ∨ i = k ∧ e = e'.withTag idx) := by
  rw [List.getElem?_modify] at he
  obtain ⟨e', he', rfl⟩ := Option.map_eq_some_iff.mp he
  refine ⟨e', he', ?_⟩
  split
  · rename_i hik
    exact Or.inr ⟨hik.symm, rfl⟩
  · exact Or.inl rfl

/-- A tag on an entry with bytes keeps the table right. -/
theorem Collected.Ok.tag (hc : c.Ok h) (hk : nodeAt c.entries k ≠ none) :
    Collected.Ok h { c with entries := c.entries.modify k (Entry.withTag idx) } where
  right i e he := by
    obtain ⟨e', he', heq⟩ := getElem?_modify_cases he
    have hr : e'.Right h (nodeAt (c.entries.modify k (Entry.withTag idx))) i :=
      (hc.right i e' he').mono fun j _ n hn => (nodeAt_modify c.entries k idx j).trans hn
    rcases heq with rfl | ⟨rfl, rfl⟩
    · exact hr
    · cases hcopy : e'.copy with
      | none =>
        unfold nodeAt at hk
        rw [he', Option.bind_some] at hk
        exact absurd hcopy hk
      | some n =>
        unfold Entry.Right at hr ⊢
        cases n <;> simpa only [Entry.withTag, hcopy] using hr
  once a i j hi hj :=
    hc.once a i j ((nodeAt_modify c.entries k idx i).symm.trans hi)
      ((nodeAt_modify c.entries k idx j).symm.trans hj)
  xloc_lt := hc.xloc_lt
  xloc_ge := by simpa only [List.length_modify] using hc.xloc_ge
  count := by simpa only [List.length_modify] using hc.count
  sizes := by
    have hsame : ((c.entries.modify k (Entry.withTag idx)).map Entry.obj).map FileObj.size =
        (c.entries.map Entry.obj).map FileObj.size := by
      apply List.ext_getElem?
      intro i
      simp only [List.getElem?_map, List.getElem?_modify]
      cases c.entries[i]? with
      | none => rfl
      | some e =>
        simp only [Option.map_eq_map, Option.map_some]
        split <;> rfl
    unfold Collected.objs
    rw [hsame]
    exact hc.sizes
  memory := hc.memory

/-- A global that needs no bytes. -/
theorem insertObj_bare (hc : c.Ok h) (hlt : obj < LOCATION_MIN) (hidx : idx ≠ 0)
    (hobj : obj = 0 ∨ ∃ j, nodeAt c.entries j = some (.shared obj))
    (hw : c.insertObj { FileObj.zero with fakeAddr := obj % 2 ^ 48, gccGlobalVaridx := idx } none =
      .ok c') :
    c'.Ok h ∧ ∃ e, c'.entries = c.entries ++ [e] ∧ e.copy = none ∧
      e.obj.gccGlobalVaridx = idx := by
  unfold Collected.insertObj at hw
  split at hw
  · rename_i hcount
    cases hw
    have hfake : obj % 2 ^ 48 = obj := Nat.mod_eq_of_lt (by simp only [LOCATION_MIN] at hlt; omega)
    refine ⟨hc.snoc ⟨rfl, rfl, hidx, ?_⟩ (fun a ha => (by cases ha)) hcount (Nat.le_refl _)
      (Nat.le_succ _) hc.sizes hc.memory, _, rfl, rfl, rfl⟩
    simp only [hfake]
    exact hobj.imp_right fun ⟨j, hj⟩ => ⟨j, nodeAt_lt hj, hj⟩
  · cases hw

/-- **A global appends one part**, and the table stays right. -/
structure AppendsGlobal (h : GccHeap) (c c' : Collected) (obj : Nat) : Prop where
  ok : c'.Ok h
  passed : c.Passed h → c'.Passed h
  grows : c.entries <+: c'.entries
  listed : ∀ node tag gs k', (∀ i < c'.entries.length, node i = nodeAt c'.entries i) →
    (∀ i < c'.entries.length, tag i = tagAt c'.entries i) →
    GlobalsListed h node tag c'.entries.length gs k' →
    GlobalsListed h node tag c.entries.length (obj :: gs) k'

/-- A global that is there already gets an entry without bytes. -/
theorem appendsGlobal_bare (hc : c.Ok h) (hlt : obj < LOCATION_MIN) (hidx : idx ≠ 0)
    (hchecked : isObjChecked c.objs obj = some true)
    (hw : c.insertObj { FileObj.zero with fakeAddr := obj % 2 ^ 48, gccGlobalVaridx := idx } none =
      .ok c') : AppendsGlobal h c c' obj := by
  have hobj : obj = 0 ∨ ∃ j, nodeAt c.entries j = some (.shared obj) := by
    rcases Nat.eq_zero_or_pos obj with h0 | hpos
    · exact Or.inl h0
    · exact Or.inr ((hc.isObjChecked_iff (Nat.ne_of_gt hpos) hlt hchecked).mp rfl)
  obtain ⟨hc', e, hent, hcopy, htag⟩ := insertObj_bare hc hlt hidx hobj hw
  have hlen : c'.entries.length = c.entries.length + 1 := by rw [hent, List.length_append]; rfl
  have hpassed : c.Passed h → c'.Passed h := fun hp => hp.snoc hent fun a ha => by
    rw [hcopy] at ha
    cases ha
  refine ⟨hc', hpassed, by rw [hent]; exact List.prefix_append _ _,
    fun node tag gs k' hnode htags hrest => ?_⟩
  have hbare : node c.entries.length = none := by
    rw [hnode _ (by omega), hent, nodeAt_length, hcopy]
  have htagged : tag c.entries.length ≠ 0 := by
    rw [htags _ (by omega), tagAt, hent, List.getElem?_concat_length, Option.map_some,
      Option.getD_some, htag]
    exact hidx
  refine .bare (hobj.imp_right fun ⟨j, hj⟩ => ⟨j, nodeAt_lt hj, ?_⟩) hbare htagged (hlen ▸ hrest)
  have hj' := nodeAt_lt hj
  rw [hnode j (by omega), hent, nodeAt_append hj', hj]

/-- Another one is walked, and the first entry of the walk is tagged. -/
theorem appendsGlobal_walked (hc : c.Ok h) (hlt : obj < LOCATION_MIN) (hidx : idx ≠ 0)
    (hobj : obj ≠ 0) {c₁ : Collected} (htree : doTree h obj c = .ok c₁)
    (hlt' : c.entries.length < c₁.entries.length) :
    AppendsGlobal h c
      { c₁ with entries := c₁.entries.modify c.entries.length (Entry.withTag idx) } obj := by
  have hwalk := doNode_walked _ hc (show h.Proper (.shared obj) from hlt) htree
  have hfirst : nodeAt c₁.entries c.entries.length ≠ none := by
    obtain ⟨ps, hps⟩ := hwalk.listing (nodeAt c₁.entries) fun _ _ => rfl
    generalize c₁.entries.length = k₁ at hps hlt'
    cases hps with
    | null => exact absurd rfl hobj
    | seen _ _ _ rest =>
      cases rest
      omega
    | enter _ _ hnode => simp [hnode]
  have hlen : (c₁.entries.modify c.entries.length (Entry.withTag idx)).length =
    c₁.entries.length := List.length_modify ..
  have hpassed : c.Passed h → Collected.Passed h
      { c₁ with entries := c₁.entries.modify c.entries.length (Entry.withTag idx) } :=
    fun hp i a hi => hwalk.passed hp i a ((nodeAt_modify ..).symm.trans hi)
  refine ⟨hwalk.ok.tag hfirst, hpassed, ?_, fun node tag gs k' hnode htags hrest => ?_⟩
  · obtain ⟨t, ht⟩ := hwalk.grows
    cases t with
    | nil =>
      rw [List.append_nil] at ht
      rw [ht] at hlt'
      omega
    | cons e t =>
      rw [← ht]
      exact ⟨Entry.withTag idx e :: t, (modify_append_length _ _ _ _).symm⟩
  · simp only at hnode htags hrest
    rw [hlen] at hnode htags hrest
    obtain ⟨ps, hps⟩ := hwalk.listing node fun i hi => by rw [hnode i hi, nodeAt_modify]
    refine .walked hps hlt' ?_ (fun i hlo hhi => ?_) hrest
    · rw [htags _ hlt', tagAt, List.getElem?_modify_eq, List.getElem?_eq_getElem hlt']
      exact hidx
    · have hne : c.entries.length ≠ i := by omega
      rw [htags i hhi, tagAt, List.getElem?_modify, List.getElem?_eq_getElem hhi]
      simp only [Option.map_eq_map, Option.map_some, if_neg hne, Option.getD_some]
      exact hwalk.untagged i _ (Nat.le_of_lt hlo) (List.getElem?_eq_getElem hhi)

theorem doGlobalTree_listed (hc : c.Ok h) (hlt : obj < LOCATION_MIN) (hidx : idx ≠ 0)
    (hw : h.doGlobalTree c obj idx = .ok c') : AppendsGlobal h c c' obj := by
  unfold GccHeap.doGlobalTree at hw
  split at hw
  · cases hw
  · rename_i hchecked
    exact appendsGlobal_bare hc hlt hidx hchecked hw
  · rename_i hchecked
    cases htree : doTree h obj c with
    | error e =>
      rw [htree] at hw
      cases hw
    | ok c₁ =>
      rw [htree] at hw
      simp only [Except.bind] at hw
      split at hw
      · cases hw
      rename_i hgrew
      cases hw
      exact appendsGlobal_walked hc hlt hidx (isObjChecked_false hchecked) htree
        (Nat.lt_of_not_le hgrew)

/-- What the table had before is still there. -/
theorem tagAt_of_grows (hg : c.entries <+: c'.entries) (hi : i < c.entries.length) :
    tagAt c'.entries i = tagAt c.entries i := by
  obtain ⟨t, ht⟩ := hg
  unfold tagAt
  rw [← ht, List.getElem?_append_left hi]

/-- The loops over the globals. -/
theorem collectGlobalData_listed : ∀ {gs : List Nat} {idx : Nat} {c c' : Collected}, c.Ok h →
    (∀ g ∈ gs, g < LOCATION_MIN) → idx ≠ 0 → idx + gs.length < 2 ^ 16 →
    h.collectGlobalData c idx gs = .ok c' →
    c'.Ok h ∧ (c.Passed h → c'.Passed h) ∧ c.entries <+: c'.entries ∧
      GlobalsListed h (nodeAt c'.entries) (tagAt c'.entries) c.entries.length gs c'.entries.length
  | [], idx, c, c', hc, _, _, _, hw => by
    cases hw
    exact ⟨hc, id, List.prefix_rfl, .nil _⟩
  | g :: gs, idx, c, c', hc, hlt, hidx, hfew, hw => by
    rw [List.length_cons] at hfew
    rw [GccHeap.collectGlobalData] at hw
    cases hone : h.doGlobalTree c g idx with
    | error e =>
      rw [hone] at hw
      cases hw
    | ok c₁ =>
      rw [hone] at hw
      obtain ⟨hc₁, hpassed, hgrows, hlisted⟩ :=
        doGlobalTree_listed hc (hlt g List.mem_cons_self) hidx hone
      have hmod : (idx + 1) % 2 ^ 16 = idx + 1 := Nat.mod_eq_of_lt (by omega)
      simp only [Except.bind, hmod] at hw
      obtain ⟨hc', hpassed', hgrows', hrest⟩ := collectGlobalData_listed hc₁
        (fun g' hg' => hlt g' (List.mem_cons_of_mem g hg')) (Nat.succ_ne_zero idx) (by omega) hw
      exact ⟨hc', fun hp => hpassed' (hpassed hp), hgrows.trans hgrows', hlisted _ _ _ _
        (fun i hi => nodeAt_of_grows hgrows' hi) (fun i hi => tagAt_of_grows hgrows' hi) hrest⟩

end Globals

/-! ## The whole table -/

/-- **The table of a compilation**: a listing of what the declarations lead to, then the globals. -/
structure Collects (h : GccHeap) (roots : Roots) (c : Collected) (k : Nat) : Prop where
  ok : c.Ok h
  passed : c.Passed h
  decls : ∃ ps, Listing h.below 0 (nodeAt c.entries) 0 (roots.decls.map .shared) ps k
  untagged : ∀ i < k, tagAt c.entries i = 0
  globals : GlobalsListed h (nodeAt c.entries) (tagAt c.entries) k roots.globals.all
    c.entries.length

section Whole

variable {h : GccHeap} {roots : Roots} {c c' : Collected} {memPtrStart k : Nat}

/-- The declarations of the symbol table. -/
theorem foldlM_doTree : ∀ {decls : List Nat} {c c' : Collected}, c.Ok h →
    (∀ d ∈ decls, d < LOCATION_MIN) → decls.foldlM (fun c d => doTree h d c) c = .ok c' →
    Walked h c (decls.map .shared) c'
  | [], c, c', hc, _, hw => by
    cases hw
    exact .nil hc
  | d :: decls, c, c', hc, hlt, hw => by
    rw [List.foldlM_cons] at hw
    cases hone : doTree h d c with
    | error e =>
      rw [hone] at hw
      cases hw
    | ok c₁ =>
      rw [hone] at hw
      have hfirst := doNode_walked _ hc (show h.Proper (.shared d) from hlt d List.mem_cons_self)
        hone
      exact hfirst.append (foldlM_doTree hfirst.ok
        (fun d' hd' => hlt d' (List.mem_cons_of_mem d hd')) hw)

theorem ok_start (h : GccHeap) (hmem : memPtrStart ≤ MAX_SIZE_PER_FILE) :
    Collected.Ok h ⟨[], memPtrStart, 2 ^ 64 - 1⟩ where
  right i e he := by cases he
  once a i j hi := by cases hi
  xloc_lt := Nat.sub_lt (Nat.two_pow_pos 64) Nat.one_pos
  xloc_ge := by simp only [List.length_nil]; omega
  count := Nat.zero_le _
  sizes := Nat.zero_le _
  memory := hmem

/-- **What `ast_collect` leaves in the table.** -/
theorem astCollect_listing (hmem : memPtrStart ≤ MAX_SIZE_PER_FILE)
    (hw : astCollect h roots memPtrStart = .ok c) : ∃ k, Collects h roots c k := by
  unfold astCollect at hw
  cases hdecls : roots.decls.foldlM (fun c decl => doTree h decl c)
      ⟨[], memPtrStart, 2 ^ 64 - 1⟩ with
  | error e =>
    rw [hdecls] at hw
    cases hw
  | ok c₁ =>
    rw [hdecls] at hw
    have hwalk := foldlM_doTree (ok_start h hmem) roots.decl_lt hdecls
    have hfew := roots.globals.few
    obtain ⟨hc, hpassed, hgrows, hglobals⟩ := collectGlobalData_listed hwalk.ok roots.global_lt
      Nat.one_ne_zero (by simp only [GccGlobals.all, List.length_append]; omega) hw
    have hnone : Collected.Passed h ⟨[], memPtrStart, 2 ^ 64 - 1⟩ := fun i a hi => by cases hi
    refine ⟨c₁.entries.length, hc, hpassed (hwalk.passed hnone), ?_, fun i hi => ?_, hglobals⟩
    · exact hwalk.listing _ fun i hi => nodeAt_of_grows hgrows hi
    · rw [tagAt_of_grows hgrows hi, tagAt, List.getElem?_eq_getElem hi]
      exact hwalk.untagged i _ (Nat.zero_le i) (List.getElem?_eq_getElem hi)

/-- Nothing is listed for the globals that is not closed. -/
theorem GlobalsListed.whole {node : Nat → Option Node} {tag : Nat → Nat}
    (honce : Listing.Once node) {gs : List Nat} {k' : Nat}
    (hg : GlobalsListed h node tag k gs k') :
    k ≤ k' ∧ Listing.Whole h.below 0 node k k' := by
  induction hg with
  | nil k => exact ⟨Nat.le_refl k, .nil k⟩
  | bare _ hnode _ _ ih =>
    obtain ⟨hle, hwhole⟩ := ih
    exact ⟨by omega, (Listing.Whole.gap hnode).append honce hwhole hle⟩
  | walked hlist hlt _ _ _ ih =>
    obtain ⟨hle, hwhole⟩ := ih
    exact ⟨by omega, (hlist.whole honce).append honce hwhole hle⟩

theorem Collects.le (hc : Collects h roots c k) : k ≤ c.entries.length :=
  (hc.globals.whole hc.ok.once).1

theorem Collects.whole (hc : Collects h roots c k) :
    Listing.Whole h.below 0 (nodeAt c.entries) 0 c.entries.length := by
  obtain ⟨ps, hdecls⟩ := hc.decls
  obtain ⟨hle, hglobals⟩ := hc.globals.whole hc.ok.once
  exact (hdecls.whole hc.ok.once).append hc.ok.once hglobals hle

/-- An object that the collector starts from. -/
def Roots.Root (roots : Roots) (a : Nat) : Prop := a ∈ roots.decls ∨ a ∈ roots.globals.all

/-- What the collector can reach. -/
def Reached (h : GccHeap) (roots : Roots) (n : Node) : Prop :=
  n ≠ .shared 0 ∧ ∃ a, roots.Root a ∧
    Relation.ReflTransGen (Listing.Steps h.below 0) (.shared a) n

/-- What is listed for the globals can be reached from one of them. -/
theorem GlobalsListed.reached {node : Nat → Option Node} {tag : Nat → Nat} {gs : List Nat}
    {k' : Nat} (hg : GlobalsListed h node tag k gs k') : ∀ {i : Nat} {n : Node}, k ≤ i → i < k' →
      node i = some n → n ≠ .shared 0 ∧ ∃ a ∈ gs,
        Relation.ReflTransGen (Listing.Steps h.below 0) (.shared a) n := by
  induction hg with
  | nil k => exact fun hle hlt => absurd hle (Nat.not_le.mpr hlt)
  | bare _ hnode _ _ ih =>
    intro i n hle hlt hi
    rcases Nat.eq_or_lt_of_le hle with rfl | hgt
    · rw [hnode] at hi
      cases hi
    · obtain ⟨hne, a, ha, hreach⟩ := ih hgt hlt hi
      exact ⟨hne, a, List.mem_cons_of_mem _ ha, hreach⟩
  | @walked k k₁ k' g gs ps hlist _ _ _ _ ih =>
    intro i n hle hlt hi
    rcases Nat.lt_or_ge i k₁ with hin | hout
    · obtain ⟨hne, r, hr, hreach⟩ := hlist.reached hle hin hi
      rw [List.mem_singleton.mp hr] at hreach
      exact ⟨hne, g, List.mem_cons_self, hreach⟩
    · obtain ⟨hne, a, ha, hreach⟩ := ih hout hlt hi
      exact ⟨hne, a, List.mem_cons_of_mem _ ha, hreach⟩

/-- Every global that is not NULL is listed. -/
theorem GlobalsListed.listed {node : Nat → Option Node} {tag : Nat → Nat} {gs : List Nat}
    {k' : Nat} (hg : GlobalsListed h node tag k gs k') :
    ∀ g ∈ gs, g ≠ 0 → ∃ i, node i = some (.shared g) := by
  induction hg with
  | nil k => exact fun g hg => (by cases hg)
  | bare hg _ _ _ ih =>
    intro g' hg' hne
    rcases List.mem_cons.mp hg' with rfl | hg'
    · rcases hg with h0 | ⟨j, -, hj⟩
      · exact absurd h0 hne
      · exact ⟨j, hj⟩
    · exact ih g' hg' hne
  | walked hlist _ _ _ _ ih =>
    intro g' hg' hne
    rcases List.mem_cons.mp hg' with rfl | hg'
    · cases hlist with
      | null => exact absurd rfl hne
      | seen _ _ hnode => exact ⟨_, hnode⟩
      | enter _ _ hnode => exact ⟨_, hnode⟩
    · exact ih g' hg' hne

/-- No location is a global. -/
theorem GlobalsListed.not_own {node : Nat → Option Node} {tag : Nat → Nat} {gs : List Nat}
    {k' : Nat} (hg : GlobalsListed h node tag k gs k') : ∀ {i : Nat} {x : ExpandedLocation},
      k ≤ i → i < k' → tag i ≠ 0 → node i ≠ some (.own x) := by
  induction hg with
  | nil k => exact fun hle hlt => absurd hle (Nat.not_le.mpr hlt)
  | bare _ hnode _ _ ih =>
    intro i x hle hlt htag hi
    rcases Nat.eq_or_lt_of_le hle with rfl | hgt
    · rw [hnode] at hi
      cases hi
    · exact ih hgt hlt htag hi
  | @walked k k₁ k' g gs ps hlist hlt _ huntagged _ ih =>
    intro i x hle hi htag hown
    rcases Nat.lt_or_ge i k₁ with hin | hout
    · rcases Nat.eq_or_lt_of_le hle with rfl | hgt
      · cases hlist with
        | null hrest =>
          cases hrest
          omega
        | seen _ _ _ hrest =>
          cases hrest
          omega
        | enter _ _ hnode =>
          rw [hnode] at hown
          cases hown
      · exact htag (huntagged i hgt hin)
    · exact ih hout hi htag hown

theorem Collects.not_own (hc : Collects h roots c k) {i : Nat} {x : ExpandedLocation}
    (htag : tagAt c.entries i ≠ 0) : nodeAt c.entries i ≠ some (.own x) := by
  intro hi
  rcases Nat.lt_or_ge i k with hlt | hge
  · exact htag (hc.untagged i hlt)
  · exact hc.globals.not_own hge (nodeAt_lt hi) htag hi

/-- **The table has what can be reached, and nothing else.** -/
theorem Collects.reached (hc : Collects h roots c k) (n : Node) :
    (∃ i, nodeAt c.entries i = some n) ↔ Reached h roots n := by
  obtain ⟨ps, hdecls⟩ := hc.decls
  constructor
  · rintro ⟨i, hi⟩
    rcases Nat.lt_or_ge i k with hlt | hge
    · obtain ⟨hne, r, hr, hreach⟩ := hdecls.reached (Nat.zero_le i) hlt hi
      obtain ⟨a, ha, rfl⟩ := List.mem_map.mp hr
      exact ⟨hne, a, Or.inl ha, hreach⟩
    · obtain ⟨hne, a, ha, hreach⟩ := hc.globals.reached hge (nodeAt_lt hi) hi
      exact ⟨hne, a, Or.inr ha, hreach⟩
  · rintro ⟨hne, a, hroot, hreach⟩
    -- a root that leads somewhere is not NULL, so it is listed
    have ha : a ≠ 0 := by
      rintro rfl
      rcases Relation.ReflTransGen.cases_head hreach with rfl | ⟨_, hstep, -⟩
      · exact hne rfl
      · exact hstep.1 rfl
    have hlisted : ∃ i, nodeAt c.entries i = some (.shared a) := by
      rcases hroot with hdecl | hglobal
      · obtain ⟨p, hlead⟩ := hdecls.leads_mem (List.mem_map.mpr ⟨a, hdecl, rfl⟩)
        cases hlead with
        | null => exact absurd rfl ha
        | shared _ _ hnode => exact ⟨_, hnode⟩
      · exact hc.globals.listed a hglobal ha
    obtain ⟨i, hi⟩ := hlisted
    obtain ⟨p, -, hp⟩ := hc.whole.reached (nodeAt_lt hi) hi hreach hne
    exact ⟨p, hp⟩

/-! ## Where the nodes are put -/

section Start

variable {n : Node} {i j : Nat} {e : Entry}

/-- No object was copied with no bytes. -/
def Collected.NonEmpty (h : GccHeap) (c : Collected) : Prop :=
  ∀ i a, nodeAt c.entries i = some (.shared a) → 0 < h.size a

/-- A node has bytes. -/
theorem Collected.Ok.size_ne (hc : c.Ok h) (hbytes : c.NonEmpty h) (he : c.entries[i]? = some e)
    (hcopy : e.copy = some n) : e.obj.size ≠ 0 := by
  have hr := (hc.right i e he).2
  cases n with
  | shared a =>
    simp only [hcopy] at hr
    rw [hr.2.2.2]
    exact Nat.ne_of_gt (hbytes i a (by rw [nodeAt, he, Option.bind_some, hcopy]))
  | own x =>
    simp only [hcopy] at hr
    rw [hr.2.2]
    decide

/-- Nodes start apart. -/
theorem Collected.Ok.start_inj (hc : c.Ok h) (hbytes : c.NonEmpty h)
    (hi : nodeAt c.entries i ≠ none)
    (hj : nodeAt c.entries j ≠ none) (heq : startOf (c.objs.map FileObj.size) i =
      startOf (c.objs.map FileObj.size) j) : i = j := by
  have hapart : ∀ {i j : Nat}, nodeAt c.entries i ≠ none → i < j →
      startOf (c.objs.map FileObj.size) i ≠ startOf (c.objs.map FileObj.size) j := by
    intro i j hi hij
    obtain ⟨n, hn⟩ := Option.ne_none_iff_exists'.mp hi
    obtain ⟨e, he, hcopy⟩ := Option.bind_eq_some_iff.mp hn
    obtain ⟨hlt, hget⟩ := List.getElem?_eq_some_iff.mp he
    have hlen : i < (c.objs.map FileObj.size).length := by
      rwa [List.length_map, Collected.objs, List.length_map]
    have hpast := startOf_add_le hlen hij
    have hsize : 0 < e.obj.size := Nat.pos_of_ne_zero (hc.size_ne hbytes he hcopy)
    have hobj : (c.objs.map FileObj.size)[i] = e.obj.size := by
      simp only [Collected.objs, List.getElem_map, hget]
    omega
  rcases Nat.lt_trichotomy i j with hlt | heq' | hgt
  · exact absurd heq (hapart hi hlt)
  · exact heq'
  · exact absurd heq.symm (hapart hj hgt)

end Start

/-! ## Chained declarations -/

/-- The symbols are chained: the first declaration leads to all others. -/
def Chained (h : GccHeap) (decls : List Nat) : Prop :=
  ∃ d ds, decls = d :: ds ∧ d ≠ 0 ∧ ∀ d' ∈ ds, d' ≠ 0 →
    Relation.ReflTransGen (Listing.Steps h.below 0) (.shared d) (.shared d')

/-- **All declarations are listed below the first one.** -/
theorem Collects.first (hc : Collects h roots c k) (hch : Chained h roots.decls) :
    ∃ d qs, nodeAt c.entries 0 = some (.shared d) ∧
      Listing h.below 0 (nodeAt c.entries) 1 (h.below (.shared d)) qs k := by
  obtain ⟨ps, hdecls⟩ := hc.decls
  obtain ⟨d, ds, heq, hd, hreach⟩ := hch
  rw [heq, List.map_cons] at hdecls
  cases hdecls with
  | null => exact absurd rfl hd
  | seen _ hi => exact absurd hi (Nat.not_lt_zero _)
  | @enter _ k₁ _ _ _ qs _ _ _ hnode sub rest =>
    have hwhole : Listing.Whole h.below 0 (nodeAt c.entries) 0 k₁ :=
      Listing.whole hc.ok.once (.enter hd (fun i hi => absurd hi (Nat.not_lt_zero i)) hnode sub
        (.nil k₁) : Listing h.below 0 (nodeAt c.entries) 0 [.shared d] [some 0] k₁)
    have hk : k = k₁ := rest.idle fun l hl => by
      obtain ⟨d', hd', rfl⟩ := List.mem_map.mp hl
      refine ⟨d', rfl, ?_⟩
      rcases Nat.eq_zero_or_pos d' with h0 | hpos
      · exact Or.inl h0
      · have hne := Nat.ne_of_gt hpos
        exact Or.inr (hwhole.reached sub.le hnode (hreach d' hd' hne)
          fun heq => hne (Link.shared.inj heq))
    exact ⟨d, qs, hnode, hk ▸ sub⟩

/-! ## The table is a copy -/

/-- **The table is a copy of what can be reached**: each object has one entry with its bytes, and
    each location slot an entry of its own.  No check has failed for an object. -/
structure Copies (h : GccHeap) (roots : Roots) (c : Collected) : Prop where
  reached : ∀ n, (∃ i, nodeAt c.entries i = some n) ↔ Reached h roots n
  passed : ∀ a, Reached h roots (.shared a) → h.bug a = none
  once : Listing.Once (nodeAt c.entries)
  right : ∀ (i : Nat) (e : Entry), c.entries[i]? = some e → e.Right h (nodeAt c.entries) i
  leads : ∃ places : Nat → List (Option Nat),
    (∀ i n, nodeAt c.entries i = some n →
      List.Forall₂ (Listing.Leads 0 (nodeAt c.entries) 0 c.entries.length) (h.below n)
        (places i)) ∧
    ∀ (i i' j j' p : Nat) (x : ExpandedLocation), nodeAt c.entries p = some (.own x) →
      (places i)[j]? = some (some p) → (places i')[j']? = some (some p) → i = i' ∧ j = j'

/-- Where the slots of each entry lead. -/
theorem Collects.places (hc : Collects h roots c k) : ∃ places : Nat → List (Option Nat),
    (∀ i n, nodeAt c.entries i = some n → Listing.Out h.below 0 (nodeAt c.entries) i (places i) ∧
      List.Forall₂ (Listing.Leads 0 (nodeAt c.entries) 0 c.entries.length) (h.below n)
        (places i)) ∧
    ∀ i, nodeAt c.entries i = none → places i = [] := by
  have hone : ∀ i, ∃ qs : List (Option Nat),
      (∀ n, nodeAt c.entries i = some n → Listing.Out h.below 0 (nodeAt c.entries) i qs ∧
        List.Forall₂ (Listing.Leads 0 (nodeAt c.entries) 0 c.entries.length) (h.below n) qs) ∧
      (nodeAt c.entries i = none → qs = []) := by
    intro i
    cases hn : nodeAt c.entries i with
    | none => exact ⟨[], fun n hn' => (by cases hn'), fun _ => rfl⟩
    | some n =>
      obtain ⟨qs, k₁, hlist, hle⟩ := hc.whole.closed i n (Nat.zero_le i) (nodeAt_lt hn) hn
      refine ⟨qs, fun n' hn' => ?_, fun hnone => (by cases hnone)⟩
      cases hn'
      exact ⟨⟨n, k₁, hn, hlist⟩, hlist.leads.imp fun _ _ hl => hl.mono (Nat.zero_le _) hle⟩
  choose places hplaces hnone using hone
  exact ⟨places, hplaces, hnone⟩

theorem Collects.copies (hc : Collects h roots c k) : Copies h roots c where
  reached := hc.reached
  passed a ha := by
    obtain ⟨i, hi⟩ := (hc.reached _).mpr ha
    exact hc.passed i a hi
  once := hc.ok.once
  right := hc.ok.right
  leads := by
    obtain ⟨places, hplaces, hnone⟩ := hc.places
    refine ⟨places, fun i n hn => (hplaces i n hn).2, fun i i' j j' p x hx hj hj' => ?_⟩
    have hnode : ∀ {i j : Nat}, (places i)[j]? = some (some p) →
        ∃ n, nodeAt c.entries i = some n := by
      intro i j hj
      cases hn : nodeAt c.entries i with
      | some n => exact ⟨n, rfl⟩
      | none =>
        rw [hnone i hn] at hj
        cases hj
    obtain ⟨n, hn⟩ := hnode hj
    obtain ⟨n', hn'⟩ := hnode hj'
    exact hc.whole.apart (Nat.zero_le i) (nodeAt_lt hn) (Nat.zero_le i') (nodeAt_lt hn')
      (hplaces i n hn).1 (hplaces i' n' hn').1 hx hj hj'

/-- The walks from the declarations end. -/
theorem foldlM_doTree_room : ∀ {decls : List Nat} {c : Collected}, c.Ok h →
    (∀ d ∈ decls, d < LOCATION_MIN) →
    decls.foldlM (fun c d => doTree h d c) c ≠ .error .room
  | [], _, _, _ => fun hw => (by cases hw)
  | d :: decls, c, hc, hlt => by
    rw [List.foldlM_cons]
    have hd : h.Proper (.shared d) := hlt d List.mem_cons_self
    cases hone : doTree h d c with
    | error e =>
      intro hw
      have herr : e = .room := by simpa only [Bind.bind, Except.bind, Except.error.injEq] using hw
      exact doNode_room _ hc hd (by omega) (herr ▸ hone)
    | ok c₁ =>
      exact foldlM_doTree_room (doNode_walked _ hc hd hone).ok
        fun d' hd' => hlt d' (List.mem_cons_of_mem d hd')

theorem doGlobalTree_room {obj idx : Nat} (hc : c.Ok h) (hlt : obj < LOCATION_MIN) :
    h.doGlobalTree c obj idx ≠ .error .room := by
  unfold GccHeap.doGlobalTree
  split
  · exact fun hw => (by cases hw)
  · unfold Collected.insertObj
    split <;> exact fun hw => (by cases hw)
  · cases hone : doTree h obj c with
    | error e =>
      intro hw
      have herr : e = .room := by simpa only [Except.bind, Except.error.injEq] using hw
      exact doNode_room _ hc (show h.Proper (.shared obj) from hlt) (by omega) (herr ▸ hone)
    | ok c₁ =>
      simp only [Except.bind]
      split <;> exact fun hw => (by cases hw)

theorem collectGlobalData_room : ∀ {gs : List Nat} {idx : Nat} {c : Collected}, c.Ok h →
    (∀ g ∈ gs, g < LOCATION_MIN) → idx ≠ 0 → idx + gs.length < 2 ^ 16 →
    h.collectGlobalData c idx gs ≠ .error .room
  | [], _, _, _, _, _, _ => fun hw => (by cases hw)
  | g :: gs, idx, c, hc, hlt, hidx, hfew => by
    rw [List.length_cons] at hfew
    have hg := hlt g List.mem_cons_self
    rw [GccHeap.collectGlobalData]
    cases hone : h.doGlobalTree c g idx with
    | error e =>
      intro hw
      have herr : e = .room := by simpa only [Except.bind, Except.error.injEq] using hw
      exact doGlobalTree_room hc hg (herr ▸ hone)
    | ok c₁ =>
      have hmod : (idx + 1) % 2 ^ 16 = idx + 1 := Nat.mod_eq_of_lt (by omega)
      simp only [Except.bind, hmod]
      exact collectGlobalData_room (doGlobalTree_listed hc hg hidx hone).1
        (fun g' hg' => hlt g' (List.mem_cons_of_mem g hg')) (Nat.succ_ne_zero idx) (by omega)

/-- The loops over the globals stop at an object that one of these leads to. -/
theorem collectGlobalData_stops {a : Nat} : ∀ {gs : List Nat} {idx : Nat} {c : Collected},
    h.collectGlobalData c idx gs = .error (.object a) → ∃ g ∈ gs, StopsAt h (.shared g) a
  | [], _, _, hw => by cases hw
  | g :: gs, idx, c, hw => by
    rw [GccHeap.collectGlobalData] at hw
    cases hone : h.doGlobalTree c g idx with
    | ok c₁ =>
      rw [hone] at hw
      obtain ⟨g', hg', hs⟩ := collectGlobalData_stops hw
      exact ⟨g', List.mem_cons_of_mem g hg', hs⟩
    | error e =>
      rw [hone] at hw
      cases hw
      refine ⟨g, List.mem_cons_self, ?_⟩
      unfold GccHeap.doGlobalTree at hone
      split at hone
      · cases hone
      · unfold Collected.insertObj at hone
        split at hone <;> cases hone
      · cases htree : doTree h g c with
        | error e =>
          rw [htree] at hone
          cases hone
          exact doNode_stops _ htree
        | ok c₁ =>
          rw [htree] at hone
          simp only [Except.bind] at hone
          split at hone <;> cases hone

/-- **A collection that stops at an object** has reached it, and a check fails for it. -/
theorem astCollect_stops {a : Nat} (hw : astCollect h roots memPtrStart = .error (.object a)) :
    Reached h roots (.shared a) ∧ (h.bug a).isSome := by
  have hroot : ∀ {b}, roots.Root b → StopsAt h (.shared b) a →
      Reached h roots (.shared a) ∧ (h.bug a).isSome := fun hb hs =>
    ⟨⟨fun heq => hs.ne (Link.shared.inj heq), _, hb, hs.reached⟩, hs.bug⟩
  unfold astCollect at hw
  cases hdecls : roots.decls.foldlM (fun c decl => doTree h decl c)
      ⟨[], memPtrStart, 2 ^ 64 - 1⟩ with
  | error e =>
    rw [hdecls] at hw
    cases hw
    obtain ⟨d, hd, c', hc'⟩ := foldlM_error hdecls
    exact hroot (Or.inl hd) (doNode_stops _ hc')
  | ok c₁ =>
    rw [hdecls] at hw
    obtain ⟨g, hg, hs⟩ := collectGlobalData_stops hw
    exact hroot (Or.inr hg) hs

/-- **`ast_collect` copies what can be reached**, when it comes back.  It stops for a full table, a
    full buffer, or an object that is reached and fails a check. -/
theorem astCollect_reached (h : GccHeap) (roots : Roots) (memPtrStart : Nat)
    (hmem : memPtrStart ≤ MAX_SIZE_PER_FILE) :
    astCollect h roots memPtrStart ≠ .error .room ∧
      (∀ a, astCollect h roots memPtrStart = .error (.object a) →
        Reached h roots (.shared a) ∧ (h.bug a).isSome) ∧
      ∀ c, astCollect h roots memPtrStart = .ok c → Copies h roots c := by
  refine ⟨?_, fun a => astCollect_stops, fun c hw => ?_⟩
  · unfold astCollect
    have hok := ok_start h hmem
    cases hdecls : roots.decls.foldlM (fun c decl => doTree h decl c)
        ⟨[], memPtrStart, 2 ^ 64 - 1⟩ with
    | error e =>
      intro hw
      have herr : e = .room := by simpa only [Except.bind, Except.error.injEq] using hw
      exact foldlM_doTree_room hok roots.decl_lt (herr ▸ hdecls)
    | ok c₁ =>
      have hfew := roots.globals.few
      exact collectGlobalData_room (foldlM_doTree hok roots.decl_lt hdecls).ok roots.global_lt
        Nat.one_ne_zero (by simp only [GccGlobals.all, List.length_append]; omega)
  · obtain ⟨k, hc⟩ := astCollect_listing hmem hw
    exact hc.copies

end Whole

/-! ## Two declarations -/

/-- Two declarations, the symbols of which are chained, a type, and an object of a code that
    `do_tree` does not know. -/
def chainCell : Nat → Cell
  | 0x1000 => ⟨[.loc 7, .ptr 0x1100], [1]⟩
  | 0x1100 => ⟨[.ptr 0x1000, .ptr 0x2100, .ptr 0], [2]⟩
  | 0x2000 => ⟨[.loc 7, .ptr 0x2100], [3]⟩
  | 0x2100 => ⟨[.ptr 0x2000, .ptr 0, .ptr 0x1100], [4]⟩
  | 0x4000 => ⟨[.loc 9, .ptr 0x2000], [5]⟩
  | 0x6000 => ⟨[], [0]⟩
  | _ => ⟨[], [6]⟩

def chainHeap : GccHeap where
  cell := chainCell
  size _ := 16
  bug a := if a = 0x6000 then some 0 else none
  expandLocation line := ⟨0x500, [UInt8.ofNat line]⟩
  ptr_lt a addr hs := by
    unfold chainCell at hs
    split at hs <;> simp at hs <;> simp only [LOCATION_MIN] <;> omega
  file_lt _ := by simp only [LOCATION_MIN]; omega
  file_leaf _ := rfl

/-- The first declaration is one of the globals, too. -/
def chainRoots : Roots where
  decls := [0x1000, 0x2000]
  globals := ⟨[0x1000, 0], [0x4000], [], by decide, by decide⟩
  decl_lt := by decide
  global_lt := by decide

def chainTable : Collected where
  entries := [⟨⟨0x1000, 0, 16, 0, 0⟩, some (.shared 0x1000)⟩,
    ⟨⟨2 ^ 48 - 1, 0, 32, 0, 0⟩, some (.own ⟨0x500, [7]⟩)⟩,
    ⟨⟨0x500, 0, 16, 0, 0⟩, some (.shared 0x500)⟩,
    ⟨⟨0x1100, 0, 16, 0, 0⟩, some (.shared 0x1100)⟩,
    ⟨⟨0x2100, 0, 16, 0, 0⟩, some (.shared 0x2100)⟩,
    ⟨⟨0x2000, 0, 16, 0, 0⟩, some (.shared 0x2000)⟩,
    ⟨⟨2 ^ 48 - 2, 0, 32, 0, 0⟩, some (.own ⟨0x500, [7]⟩)⟩,
    ⟨⟨0x1000, 0, 0, 0, 1⟩, none⟩,
    ⟨⟨0, 0, 0, 0, 2⟩, none⟩,
    ⟨⟨0x4000, 0, 16, 0, 3⟩, some (.shared 0x4000)⟩,
    ⟨⟨2 ^ 48 - 3, 0, 32, 0, 0⟩, some (.own ⟨0x500, [9]⟩)⟩]
  memPtr := 192
  xlocAddr := 2 ^ 64 - 4

theorem chain_collected : astCollect chainHeap chainRoots 0 = .ok chainTable := rfl

/-- The strange object is a third declaration. -/
def strangeRoots : Roots where
  decls := [0x1000, 0x6000, 0x2000]
  globals := chainRoots.globals
  decl_lt := by decide
  global_lt := chainRoots.global_lt

/-- The two declarations are copied, and the collection of all three stops at the third. -/
theorem chain_copies :
    astCollect chainHeap chainRoots 0 = .ok chainTable ∧ Copies chainHeap chainRoots chainTable ∧
      astCollect chainHeap strangeRoots 0 = .error (.object 0x6000) ∧
      Reached chainHeap strangeRoots (.shared 0x6000) := by
  have hstops : astCollect chainHeap strangeRoots 0 = .error (.object 0x6000) := rfl
  exact ⟨chain_collected, (astCollect_reached chainHeap chainRoots 0 (Nat.zero_le _)).2.2 _
    chain_collected, hstops,
    ((astCollect_reached chainHeap strangeRoots 0 (Nat.zero_le _)).2.1 _ hstops).1⟩

end Srcinv.Collect
