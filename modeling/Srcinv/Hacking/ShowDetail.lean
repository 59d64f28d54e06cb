import Mathlib.Data.List.Nodup
import Mathlib.Data.List.Perm.Subperm
import Mathlib.Data.List.TakeWhile
import Srcinv.Analysis.GccNode

/-!
# Fields by their path of names (`hacking/show_detail.cc`)

`show_detail` takes a type by a name with dots: the name of the type, and for each level the name of
a field or `*` for all fields.  `split_names` has room for `TYPE_MAX_DEPTH` of them, and ends with a
NULL when there are fewer.

* `findTarget_eq` — what `find_target` comes to is what a recursion over the components picks, up to
  the first empty one; behind eight components it reads what is behind the array.
* `findTarget_exact` — when it visits exactly the fields that match, each once.
* `eight_components` — a name with as many components as there is room for.
-/

namespace Srcinv.Hacking

open Srcinv.Analysis

/-! ## The code -/

def TYPE_MAX_DEPTH : Nat := 8

/-- A `var_list` of `children`: the name of a field and its type, if it has them. -/
structure FieldVar where
  name : Option Name
  type : Option Nat
  deriving DecidableEq, Repr

/-- The type nodes, with the fields of each. -/
structure TypeStore where
  children : Nat → List FieldVar

/-- `'.'`. -/
def DOT : UInt8 := 46

/-- `*name == '*'`. -/
def isWild (name : Name) : Bool := name.head? = some 42

/-- The components from entry `i` of `split_names` on; `none` when they exceed the maximal depth. -/
def splitNames (s : Name) (i : Nat) : Option (List Name) :=
  match s.findIdx? (· == DOT) with
  | none => some [s]
  | some k =>
    if _h : i + 1 ≥ TYPE_MAX_DEPTH then none
    else (splitNames (s.drop (k + 1)) (i + 1)).map fun names => s.take k :: names
  termination_by TYPE_MAX_DEPTH - i
  decreasing_by omega

/-- `get_tn_field`, with the place of the field. -/
def getTnField (children : List FieldVar) (name : Name) : Option (FieldVar × Nat) :=
  children.zipIdx.find? fun vl => vl.1.name = some name

/-- `vl_add`. -/
def vlAdd (entries : Nat) (vl : List Nat) (res : List (List Nat)) : List (List Nat) :=
  if res.length < entries then res ++ [vl] else res

/-- What is done with a field; `sub` is the call one level below. -/
def visitField (entries : Nat) (path : List Nat)
    (sub : Option Nat → List Nat → List (List Nat) → Option (Bool × List (List Nat)))
    (res : List (List Nat)) (vl : FieldVar × Nat) : Option (List (List Nat)) :=
  (sub vl.1.type (path ++ [vl.2]) res).map fun ret =>
    if ret.1 then vlAdd entries (path ++ [vl.2]) ret.2 else ret.2

/-- `find_target`.  A field is given by the places of the fields on the way to it, `path` for `tn`;
    `none` is a read of `split_names` behind its end. -/
def findTarget (st : TypeStore) (names : List Name) (entries : Nat) (tn : Option Nat) (level : Nat)
    (path : List Nat) (res : List (List Nat)) : Option (Bool × List (List Nat)) :=
  match tn with
  | none => some (false, res)
  | some tn =>
    if _h : TYPE_MAX_DEPTH ≤ level then none
    else
      match names[level]? with
      | none => some (true, res)
      | some name =>
        if name = [] then some (true, res)
        else if isWild name then
          ((st.children tn).zipIdx.foldlM (visitField entries path fun tn path res =>
            findTarget st names entries tn (level + 1) path res) res).map fun res => (false, res)
        else
          match getTnField (st.children tn) name with
          | none => some (false, res)
          | some vl => (visitField entries path (fun tn path res =>
              findTarget st names entries tn (level + 1) path res) res vl).map fun res =>
                (false, res)
  termination_by TYPE_MAX_DEPTH - level
  decreasing_by all_goals omega

/-- `vls_max`. -/
def VLS_MAX : Nat := 0x100

/-- The search of `output_type`. -/
def outputTypeFields (st : TypeStore) (names : List Name) (tn : Nat) :
    Option (Bool × List (List Nat)) :=
  findTarget st names VLS_MAX (some tn) 1 [] []

/-! ## What is picked -/

/-- The fields that a component picks: all of them, or the first one with the name. -/
def pickedFields (children : List FieldVar) (name : Name) : List (FieldVar × Nat) :=
  if isWild name then children.zipIdx else (getTnField children name).toList

/-- The fields that are picked at the end of the components, if they have a type. -/
def picks (st : TypeStore) : List Name → Option Nat → List (List Nat)
  | _, none => []
  | [], some _ => [[]]
  | c :: cs, some t =>
    (pickedFields (st.children t) c).flatMap fun vl => (picks st cs vl.1.type).map (vl.2 :: ·)

/-- The components before the first empty one. -/
def beforeEmpty (names : List Name) : List Name := names.takeWhile fun name => name ≠ []

/-- `vl_add` of several fields. -/
def vlAddAll (entries : Nat) (res vls : List (List Nat)) : List (List Nat) :=
  vls.foldl (fun res vl => vlAdd entries vl res) res

section Picks

variable {st : TypeStore} {names : List Name} {entries level : Nat} {path : List Nat}
  {res : List (List Nat)}

theorem vlAddAll_eq (entries : Nat) : ∀ (vls res : List (List Nat)),
    vlAddAll entries res vls = res ++ vls.take (entries - res.length)
  | [], res => by simp [vlAddAll]
  | vl :: vls, res => by
    change vlAddAll entries (vlAdd entries vl res) vls = _
    rw [vlAddAll_eq entries vls]
    unfold vlAdd
    split
    · rename_i hroom
      obtain ⟨room, hroom'⟩ : ∃ room, entries - res.length = room + 1 :=
        ⟨entries - res.length - 1, by omega⟩
      have hless : entries - (res ++ [vl]).length = room := by
        rw [List.length_append, List.length_singleton]
        omega
      rw [hless, hroom', List.take_succ_cons, List.append_assoc, List.singleton_append]
    · rename_i hfull
      have hzero : entries - res.length = 0 := by omega
      rw [hzero, List.take_zero, List.take_zero]

theorem vlAddAll_append (res vls vls' : List (List Nat)) :
    vlAddAll entries (vlAddAll entries res vls) vls' = vlAddAll entries res (vls ++ vls') :=
  (List.foldl_append ..).symm

/-- A loop that stops at bad elements and else adds to the results. -/
theorem foldlM_vlAddAll {α : Type} {f : List (List Nat) → α → Option (List (List Nat))}
    {bad : α → Prop} [DecidablePred bad] {g : α → List (List Nat)}
    (hf : ∀ res x, f res x = if bad x then none else some (vlAddAll entries res (g x))) :
    ∀ (l : List α) (res : List (List Nat)),
      l.foldlM f res =
        if ∃ x ∈ l, bad x then none else some (vlAddAll entries res (l.flatMap g))
  | [], res => by simp [vlAddAll]
  | x :: l, res => by
    rw [List.foldlM_cons, hf]
    by_cases hbad : bad x
    · rw [if_pos hbad, if_pos ⟨x, List.mem_cons_self, hbad⟩]
      rfl
    · rw [if_neg hbad]
      change l.foldlM f (vlAddAll entries res (g x)) = _
      rw [foldlM_vlAddAll hf l, vlAddAll_append, List.flatMap_cons]
      have hsame : (∃ y ∈ x :: l, bad y) ↔ ∃ y ∈ l, bad y := by simp [hbad]
      simp only [hsame]

/-- Both branches go through the fields that are picked. -/
theorem findTarget_fields {t : Nat} (hlevel : level < TYPE_MAX_DEPTH) {name : Name}
    (hname : names[level]? = some name) (hne : name ≠ []) :
    findTarget st names entries (some t) level path res =
      ((pickedFields (st.children t) name).foldlM (visitField entries path fun tn path res =>
        findTarget st names entries tn (level + 1) path res) res).map fun res => (false, res) := by
  rw [findTarget, dif_neg (by omega)]
  simp only [hname, if_neg hne]
  unfold pickedFields
  split
  · rfl
  · cases getTnField (st.children t) name with
    | none => rfl
    | some vl => simp only [Option.toList_some, List.foldlM_cons, List.foldlM_nil, bind_pure]

/-- The search runs behind the array. -/
def Overreads (st : TypeStore) (cs : List Name) (level : Nat) (tn : Option Nat) : Prop :=
  level + cs.length = TYPE_MAX_DEPTH ∧ picks st cs tn ≠ []

instance (cs : List Name) : Decidable (Overreads st cs level (tn : Option Nat)) :=
  inferInstanceAs (Decidable (_ ∧ _))

/-- What a call comes to when the components from `level` on are `cs`. -/
def comesTo (st : TypeStore) (entries : Nat) (cs : List Name) (level : Nat) (tn : Option Nat)
    (path : List Nat) (res : List (List Nat)) : Option (Bool × List (List Nat)) :=
  if Overreads st cs level tn then none
  else some (cs.isEmpty && tn.isSome,
    if cs.isEmpty then res else vlAddAll entries res ((picks st cs tn).map (path ++ ·)))

/-- What a visit of a field adds. -/
theorem visitField_eq {sub : Option Nat → List Nat → List (List Nat) →
    Option (Bool × List (List Nat))} {cs : List Name}
    (hsub : ∀ tn path res, sub tn path res = comesTo st entries cs (level + 1) tn path res)
    (res : List (List Nat)) (vl : FieldVar × Nat) :
    visitField entries path sub res vl =
      if Overreads st cs (level + 1) vl.1.type then none
      else some (vlAddAll entries res
        ((picks st cs vl.1.type).map fun p => path ++ vl.2 :: p)) := by
  unfold visitField
  rw [hsub]
  unfold comesTo
  split
  · rfl
  · rw [Option.map_some]
    cases cs with
    | nil =>
      cases vl.1.type with
      | none => simp [picks, vlAddAll]
      | some t => simp [picks, vlAddAll]
    | cons c cs => simp [List.append_assoc]

theorem beforeEmpty_cons {name : Name} (hne : name ≠ []) (names : List Name) :
    beforeEmpty (name :: names) = name :: beforeEmpty names := by
  simp [beforeEmpty, hne]

theorem comesTo_none (cs : List Name) :
    comesTo st entries cs level none path res = some (false, res) := by
  have hpicks : picks st cs none = [] := by cases cs <;> rfl
  unfold comesTo
  rw [if_neg (fun h => h.2 hpicks), hpicks]
  simp [vlAddAll]

/-- The end of the components at a type. -/
theorem comesTo_nil {t : Nat} (hlevel : level < TYPE_MAX_DEPTH) :
    comesTo st entries [] level (some t) path res = some (true, res) := by
  have hin : ¬ Overreads st [] level (some t) := fun h => Nat.ne_of_lt hlevel h.1
  unfold comesTo
  rw [if_neg hin]
  rfl

/-- A component picks fields, and the next ones pick theirs. -/
theorem comesTo_cons (c : Name) (cs : List Name) (t : Nat) :
    comesTo st entries (c :: cs) level (some t) path res =
      (if ∃ vl ∈ pickedFields (st.children t) c, Overreads st cs (level + 1) vl.1.type then none
      else some (vlAddAll entries res ((pickedFields (st.children t) c).flatMap fun vl =>
        (picks st cs vl.1.type).map fun p => path ++ vl.2 :: p))).map fun res => (false, res) := by
  have hover : Overreads st (c :: cs) level (some t) ↔
      ∃ vl ∈ pickedFields (st.children t) c, Overreads st cs (level + 1) vl.1.type := by
    unfold Overreads
    rw [List.length_cons, picks]
    constructor
    · rintro ⟨hlen, hpicks⟩
      rw [Ne, List.flatMap_eq_nil_iff] at hpicks
      push Not at hpicks
      obtain ⟨vl, hvl, hp⟩ := hpicks
      exact ⟨vl, hvl, by omega, fun hnil => hp (by rw [hnil]; rfl)⟩
    · rintro ⟨vl, hvl, hlen, hp⟩
      refine ⟨by omega, fun hnil => hp ?_⟩
      rw [List.flatMap_eq_nil_iff] at hnil
      exact List.map_eq_nil_iff.mp (hnil vl hvl)
  unfold comesTo
  by_cases h : Overreads st (c :: cs) level (some t)
  · rw [if_pos h, if_pos (hover.mp h)]
    rfl
  · rw [if_neg h, if_neg (fun h' => h (hover.mpr h'))]
    simp [picks, List.map_flatMap, Function.comp_def]

theorem findTarget_end {t : Nat} (hlevel : level < TYPE_MAX_DEPTH)
    (hname : names[level]? = none ∨ names[level]? = some []) :
    findTarget st names entries (some t) level path res = some (true, res) := by
  rw [findTarget.eq_def]
  simp only [dif_neg (show ¬ TYPE_MAX_DEPTH ≤ level by omega)]
  rcases hname with hname | hname <;> simp only [hname, if_pos]

/-- **What `find_target` comes to.** -/
theorem findTarget_eq (hn : names.length ≤ TYPE_MAX_DEPTH) : ∀ (room : Nat) {level : Nat}
    (tn : Option Nat) (path : List Nat) (res : List (List Nat)), level + room = TYPE_MAX_DEPTH →
      findTarget st names entries tn level path res =
        comesTo st entries (beforeEmpty (names.drop level)) level tn path res
  | room, level, none, path, res, hroom => by
    rw [findTarget.eq_def, comesTo_none]
  | 0, level, some t, path, res, hroom => by
    have hdrop : names.drop level = [] := List.drop_eq_nil_of_le (by omega)
    have hover : Overreads st [] level (some t) := ⟨hroom, by simp [picks]⟩
    rw [findTarget.eq_def, hdrop]
    simp only [dif_pos (show TYPE_MAX_DEPTH ≤ level by omega)]
    exact (if_pos hover).symm
  | room + 1, level, some t, path, res, hroom => by
    have hlevel : level < TYPE_MAX_DEPTH := by omega
    rcases hname : names[level]? with _ | name
    · have hdrop : names.drop level = [] :=
        List.drop_eq_nil_of_le (List.getElem?_eq_none_iff.mp hname)
      rw [findTarget_end hlevel (Or.inl hname), hdrop]
      exact (comesTo_nil hlevel).symm
    · obtain ⟨hlt, hget⟩ := List.getElem?_eq_some_iff.mp hname
      have hdrop : names.drop level = name :: names.drop (level + 1) := by
        rw [List.drop_eq_getElem_cons hlt, hget]
      by_cases hne : name = []
      · rw [findTarget_end hlevel (Or.inr (by rw [hname, hne])), hdrop, hne]
        exact (comesTo_nil hlevel).symm
      · have hsub := fun tn path res => @findTarget_eq hn room (level + 1) tn path res (by omega)
        rw [findTarget_fields hlevel hname hne, foldlM_vlAddAll (visitField_eq hsub), hdrop,
          beforeEmpty_cons hne]
        exact (comesTo_cons ..).symm

end Picks

/-! ## Fields that match -/

/-- A field with a path of names that matches the components: each component is `*`, or the name of
    the field at its place.  An empty component is no name. -/
def Matches (st : TypeStore) : List Name → Option Nat → List Nat → Prop
  | [], _, [] => True
  | c :: cs, some t, i :: p =>
    c ≠ [] ∧ ∃ vl, (st.children t)[i]? = some vl ∧ (isWild c = true ∨ vl.name = some c) ∧
      Matches st cs vl.type p
  | _, _, _ => False

/-- A field that matches, that has a type, and that is on a way which takes the first field with the
    name wherever the component is no `*`. -/
def Picks (st : TypeStore) : List Name → Option Nat → List Nat → Prop
  | [], tn, [] => tn.isSome = true
  | c :: cs, some t, i :: p =>
    c ≠ [] ∧ ∃ vl, (st.children t)[i]? = some vl ∧
      (isWild c = true ∨
        vl.name = some c ∧ ∀ j vl', j < i → (st.children t)[j]? = some vl' → vl'.name ≠ some c) ∧
      Picks st cs vl.type p
  | _, _, _ => False

section Match

variable {st : TypeStore} {cs : List Name} {tn : Option Nat} {p : List Nat}

theorem Picks.matches : ∀ {cs : List Name} {tn : Option Nat} {p : List Nat}, Picks st cs tn p →
    Matches st cs tn p
  | [], _, [], _ => trivial
  | _ :: _, some _, _ :: _, ⟨hne, vl, hvl, hname, hrest⟩ =>
    ⟨hne, vl, hvl, hname.imp_right And.left, hrest.matches⟩

theorem Matches.nonempty : ∀ {cs : List Name} {tn : Option Nat} {p : List Nat},
    Matches st cs tn p → ∀ c ∈ cs, c ≠ []
  | [], _, _, _, _, hc => (by cases hc)
  | _ :: _, some _, _ :: _, ⟨hne, _, _, _, hrest⟩, c', hc' => by
    rcases List.mem_cons.mp hc' with rfl | hc'
    · exact hne
    · exact hrest.nonempty c' hc'

theorem Matches.length : ∀ {cs : List Name} {tn : Option Nat} {p : List Nat},
    Matches st cs tn p → p.length = cs.length
  | [], _, [], _ => rfl
  | _ :: _, some _, _ :: _, ⟨_, _, _, _, hrest⟩ => congrArg (· + 1) hrest.length

/-- The fields that a component picks, by their places. -/
theorem mem_pickedFields {children : List FieldVar} {c : Name} {vl : FieldVar} {i : Nat} :
    (vl, i) ∈ pickedFields children c ↔ children[i]? = some vl ∧
      (isWild c = true ∨
        vl.name = some c ∧ ∀ j vl', j < i → children[j]? = some vl' → vl'.name ≠ some c) := by
  unfold pickedFields
  split
  · rename_i hwild
    rw [List.mem_zipIdx_iff_getElem?]
    exact ⟨fun h => ⟨h, Or.inl hwild⟩, And.left⟩
  · rename_i hwild
    rw [Option.mem_toList, getTnField, List.find?_eq_some_iff_getElem]
    constructor
    · rintro ⟨hname, k, hk, hget, hbefore⟩
      rw [List.getElem_zipIdx, Nat.zero_add] at hget
      cases hget
      rw [List.length_zipIdx] at hk
      refine ⟨List.getElem?_eq_getElem hk, Or.inr ⟨by simpa using hname, ?_⟩⟩
      intro j vl' hj hvl' hsame
      obtain ⟨hlt, rfl⟩ := List.getElem?_eq_some_iff.mp hvl'
      have hno := hbefore j hj
      rw [List.getElem_zipIdx] at hno
      simp [hsame] at hno
    · rintro ⟨hget, h⟩
      obtain ⟨hname, hfirst⟩ := h.resolve_left hwild
      obtain ⟨hlt, rfl⟩ := List.getElem?_eq_some_iff.mp hget
      refine ⟨by simpa using hname, i, by rw [List.length_zipIdx]; exact hlt, ?_, ?_⟩
      · rw [List.getElem_zipIdx, Nat.zero_add]
      · intro j hj
        rw [List.getElem_zipIdx]
        have hno := hfirst j _ hj (List.getElem?_eq_getElem (Nat.lt_trans hj hlt))
        simpa using hno

theorem pickedFields_nodup (children : List FieldVar) (c : Name) :
    (pickedFields children c).Pairwise fun vl vl' => vl.2 ≠ vl'.2 := by
  unfold pickedFields
  split
  · have hnodup : (children.zipIdx.map Prod.snd).Nodup := by
      rw [List.zipIdx_map_snd]
      exact List.nodup_range'
    exact List.pairwise_map.mp hnodup
  · cases getTnField children c with
    | none => exact List.Pairwise.nil
    | some vl => exact List.pairwise_singleton _ _

/-- The list of picks has what is picked. -/
theorem mem_picks : ∀ {cs : List Name} {tn : Option Nat} {p : List Nat}, (∀ c ∈ cs, c ≠ []) →
    (p ∈ picks st cs tn ↔ Picks st cs tn p)
  | [], none, p, _ => by cases p <;> simp [picks, Picks]
  | [], some t, p, _ => by cases p <;> simp [picks, Picks]
  | c :: cs, none, p, _ => by simp [picks, Picks]
  | c :: cs, some t, p, hne => by
    have hrest := fun {tn p} => @mem_picks cs tn p fun c' hc' => hne c' (List.mem_cons_of_mem c hc')
    rw [picks, List.mem_flatMap]
    constructor
    · rintro ⟨⟨vl, i⟩, hvl, hp⟩
      obtain ⟨q, hq, rfl⟩ := List.mem_map.mp hp
      obtain ⟨hget, hname⟩ := mem_pickedFields.mp hvl
      exact ⟨hne c List.mem_cons_self, vl, hget, hname, hrest.mp hq⟩
    · cases p with
      | nil => exact fun h => h.elim
      | cons i q =>
        rintro ⟨-, vl, hget, hname, hq⟩
        exact ⟨(vl, i), mem_pickedFields.mpr ⟨hget, hname⟩,
          List.mem_map.mpr ⟨q, hrest.mpr hq, rfl⟩⟩

theorem picks_nodup : ∀ (cs : List Name) (tn : Option Nat), (picks st cs tn).Nodup
  | [], none => List.nodup_nil
  | [], some t => List.nodup_singleton _
  | c :: cs, none => List.nodup_nil
  | c :: cs, some t => by
    rw [picks, List.nodup_flatMap]
    refine ⟨fun vl _ => (picks_nodup cs vl.1.type).map fun _ _ h => (List.cons.inj h).2, ?_⟩
    refine (pickedFields_nodup (st.children t) c).imp fun {vl vl'} hne => ?_
    intro q hq hq'
    obtain ⟨p, -, rfl⟩ := List.mem_map.mp hq
    obtain ⟨p', -, h⟩ := List.mem_map.mp hq'
    exact hne (List.cons.inj h).1.symm

end Match

/-! ## The components -/

theorem splitNames_length : ∀ (room : Nat) {s : Name} {i : Nat} {names : List Name},
    i + room = TYPE_MAX_DEPTH → 0 < room → splitNames s i = some names →
      0 < names.length ∧ i + names.length ≤ TYPE_MAX_DEPTH
  | 0, _, _, _, _, hpos, _ => absurd hpos (Nat.lt_irrefl 0)
  | room + 1, s, i, names, hroom, _, h => by
    unfold splitNames at h
    split at h
    · cases h
      simp only [List.length_singleton]
      omega
    · split at h
      · cases h
      · rename_i hmore
        obtain ⟨rest, hrest, rfl⟩ := Option.map_eq_some_iff.mp h
        have hlen := splitNames_length room (by omega) (by omega) hrest
        rw [List.length_cons]
        omega

/-- The components of a name that `show_detail` accepts. -/
structure Components where
  names : List Name
  pos : 0 < names.length
  le : names.length ≤ TYPE_MAX_DEPTH

/-- A name that `show_detail` accepts has its components. -/
theorem splitNames_components {s : Name} {names : List Name} (h : splitNames s 0 = some names) :
    ∃ c : Components, c.names = names := by
  obtain ⟨hpos, hle⟩ := splitNames_length TYPE_MAX_DEPTH (Nat.zero_add _) (by decide) h
  exact ⟨⟨names, hpos, by omega⟩, rfl⟩

/-- The components behind the name of the type. -/
def Components.fields (c : Components) : List Name := c.names.drop 1

/-- No index into `split_names` is behind its end, and **the fields that are visited are those that
    match, each once.** -/
def FindRight (st : TypeStore) (c : Components) (tn : Nat) : Prop :=
  ∃ hit res, outputTypeFields st c.names tn = some (hit, res) ∧ res.Nodup ∧
    ∀ p, p ∈ res ↔ p ≠ [] ∧ Matches st c.fields (some tn) p

/-- **The condition**: nothing is picked by what stands before an empty component, or by as many
    components as there is room for; each field that matches has a type and is the first one with
    its name; and not more than `VLS_MAX` fields match. -/
structure FindMet (st : TypeStore) (c : Components) (tn : Nat) : Prop where
  named : beforeEmpty c.fields ≠ c.fields → beforeEmpty c.fields ≠ [] →
    ∀ p, ¬ Picks st (beforeEmpty c.fields) (some tn) p
  short : c.names.length = TYPE_MAX_DEPTH → ∀ p, ¬ Picks st c.fields (some tn) p
  shown : c.fields ≠ [] → ∀ p, Matches st c.fields (some tn) p → Picks st c.fields (some tn) p
  few : ∀ ps : List (List Nat), ps.Nodup →
    (∀ p ∈ ps, p ≠ [] ∧ Matches st c.fields (some tn) p) → ps.length ≤ VLS_MAX

section Exact

variable {st : TypeStore} {c : Components} {tn : Nat} {p : List Nat}

theorem beforeEmpty_nonempty (names : List Name) : ∀ c ∈ beforeEmpty names, c ≠ [] := by
  intro c hc
  simpa using List.mem_takeWhile_imp hc

theorem beforeEmpty_eq {names : List Name} (h : ∀ c ∈ names, c ≠ []) :
    beforeEmpty names = names :=
  List.takeWhile_eq_self_iff.mpr fun c hc => by simpa using h c hc

/-- What the search of a type comes to. -/
theorem outputTypeFields_eq (st : TypeStore) (c : Components) (tn : Nat) :
    outputTypeFields st c.names tn =
      comesTo st VLS_MAX (beforeEmpty c.fields) 1 (some tn) [] [] :=
  findTarget_eq c.le 7 (some tn) [] [] rfl

theorem picked_iff : p ∈ picks st (beforeEmpty c.fields) (some tn) ↔
    Picks st (beforeEmpty c.fields) (some tn) p :=
  mem_picks (beforeEmpty_nonempty c.fields)

/-- The search stays in the array exactly when nothing is picked by as many components as there is
    room for. -/
theorem overreads_iff : Overreads st (beforeEmpty c.fields) 1 (some tn) ↔
    c.names.length = TYPE_MAX_DEPTH ∧ ∃ p, Picks st c.fields (some tn) p := by
  have hlen : c.fields.length = c.names.length - 1 := List.length_drop ..
  have hpos := c.pos
  have hle := c.le
  have hprefix : beforeEmpty c.fields <+: c.fields := List.takeWhile_prefix _
  constructor
  · rintro ⟨hfull, hpicks⟩
    have hshort := hprefix.length_le
    have hall : beforeEmpty c.fields = c.fields := hprefix.eq_of_length (by omega)
    obtain ⟨p, hp⟩ := List.exists_mem_of_ne_nil _ hpicks
    have hpick := picked_iff.mp hp
    rw [hall] at hfull hpick
    exact ⟨by omega, p, hpick⟩
  · rintro ⟨hfull, p, hp⟩
    have hall : beforeEmpty c.fields = c.fields := beforeEmpty_eq hp.matches.nonempty
    refine ⟨by rw [hall]; omega, List.ne_nil_of_mem (a := p) (picked_iff.mpr ?_)⟩
    rw [hall]
    exact hp

/-- The fields that are visited, when the search stays in the array. -/
theorem outputTypeFields_some {hit : Bool} {res : List (List Nat)}
    (h : outputTypeFields st c.names tn = some (hit, res)) :
    ¬ Overreads st (beforeEmpty c.fields) 1 (some tn) ∧
      (beforeEmpty c.fields = [] → res = []) ∧
      (beforeEmpty c.fields ≠ [] →
        res = (picks st (beforeEmpty c.fields) (some tn)).take VLS_MAX) := by
  rw [outputTypeFields_eq, comesTo] at h
  split at h
  · cases h
  · rename_i hin
    have hres := (Prod.mk.inj (Option.some.inj h)).2
    refine ⟨hin, fun hnil => ?_, fun hne => ?_⟩
    · rw [← hres, if_pos (List.isEmpty_iff.mpr hnil)]
    · rw [← hres, if_neg (fun h => hne (List.isEmpty_iff.mp h)), vlAddAll_eq]
      simp

theorem picks_ne_nil {cs : List Name} (hne : cs ≠ []) (hp : Picks st cs (some tn) p) : p ≠ [] := by
  rintro rfl
  exact hne (List.eq_nil_of_length_eq_zero hp.matches.length.symm)

theorem FindRight.met (h : FindRight st c tn) : FindMet st c tn := by
  obtain ⟨hit, res, hcall, hnodup, hmem⟩ := h
  obtain ⟨hin, hnil, hcons⟩ := outputTypeFields_some hcall
  have hcap : res.length ≤ VLS_MAX := by
    by_cases hne : beforeEmpty c.fields = []
    · rw [hnil hne]
      exact Nat.zero_le _
    · rw [hcons hne]
      exact List.length_take_le ..
  refine ⟨fun hdiff hne p hp => ?_, fun hfull p hp => hin (overreads_iff.mpr ⟨hfull, p, hp⟩),
    fun hne p hp => ?_, fun ps hps hall => ?_⟩
  · -- the first field that is picked is visited, although an empty component matches no name
    have hsome : res ≠ [] := by
      rw [hcons hne]
      intro h
      rcases List.take_eq_nil_iff.mp h with h | h
      · cases h
      · exact List.ne_nil_of_mem (picked_iff.mpr hp) h
    obtain ⟨q, hq⟩ := List.exists_mem_of_ne_nil res hsome
    exact hdiff (beforeEmpty_eq ((hmem q).mp hq).2.nonempty)
  · have hall := beforeEmpty_eq hp.nonempty
    have hpos : p ≠ [] := by
      rintro rfl
      exact hne (List.eq_nil_of_length_eq_zero hp.length.symm)
    have hvisited := (hmem p).mpr ⟨hpos, hp⟩
    rw [hcons (by rwa [hall])] at hvisited
    have hpick := picked_iff.mp (List.mem_of_mem_take hvisited)
    rwa [hall] at hpick
  · exact (hps.subperm fun p hp => (hmem p).mpr (hall p hp)).length_le.trans hcap

theorem FindMet.right (hmet : FindMet st c tn) : FindRight st c tn := by
  have hin : ¬ Overreads st (beforeEmpty c.fields) 1 (some tn) := fun h => by
    obtain ⟨hfull, p, hp⟩ := overreads_iff.mp h
    exact hmet.short hfull p hp
  obtain ⟨⟨hit, res⟩, hcall⟩ : ∃ r, outputTypeFields st c.names tn = some r :=
    ⟨_, by rw [outputTypeFields_eq, comesTo, if_neg hin]⟩
  obtain ⟨-, hnil, hcons⟩ := outputTypeFields_some hcall
  refine ⟨hit, res, hcall, ?_⟩
  by_cases hall : beforeEmpty c.fields = c.fields
  · by_cases hne : c.fields = []
    · rw [hnil (hall.trans hne), hne]
      refine ⟨List.nodup_nil, fun p => ⟨fun h => (by cases h), fun ⟨hpos, hp⟩ => ?_⟩⟩
      exact absurd (List.eq_nil_of_length_eq_zero hp.length) hpos
    · -- all that is picked has room, and what matches is picked
      have hpicked : ∀ p, p ∈ picks st (beforeEmpty c.fields) (some tn) ↔
          p ≠ [] ∧ Matches st c.fields (some tn) p := by
        intro p
        rw [picked_iff, hall]
        exact ⟨fun hp => ⟨picks_ne_nil hne hp, hp.matches⟩, fun h => hmet.shown hne p h.2⟩
      have hnodup := @picks_nodup st (beforeEmpty c.fields) (some tn)
      have hroom := hmet.few _ hnodup fun p hp => (hpicked p).mp hp
      rw [hcons (by rwa [hall]), List.take_of_length_le hroom]
      exact ⟨hnodup, hpicked⟩
  · have hres : res = [] := by
      by_cases hne : beforeEmpty c.fields = []
      · exact hnil hne
      · have hempty : picks st (beforeEmpty c.fields) (some tn) = [] :=
          List.eq_nil_iff_forall_not_mem.mpr fun p hp =>
            hmet.named hall hne p (picked_iff.mp hp)
        rw [hcons hne, hempty, List.take_nil]
    rw [hres]
    refine ⟨List.nodup_nil, fun p => ⟨fun h => (by cases h), fun ⟨_, hp⟩ => ?_⟩⟩
    exact absurd (beforeEmpty_eq hp.nonempty) hall

/-- **`find_target` visits exactly the fields that match, each once, and stays in `split_names`,
    exactly under the condition.** -/
theorem findTarget_exact (st : TypeStore) (c : Components) (tn : Nat) :
    FindRight st c tn ↔ FindMet st c tn :=
  ⟨FindRight.met, FindMet.right⟩

end Exact

/-- Eight types, each but the last with a field `a` of the next one. -/
def nestedStore : TypeStore := ⟨fun t => if t < 7 then [⟨some [97], some (t + 1)⟩] else []⟩

/-- `t.a.a.a.a.a.a.a`. -/
def nestedName : Name := [116, 46, 97, 46, 97, 46, 97, 46, 97, 46, 97, 46, 97, 46, 97]

/-- **A name with eight components**: `find_target` looks for the ninth. -/
theorem eight_components : ∃ c : Components, splitNames nestedName 0 = some c.names ∧
    outputTypeFields nestedStore c.names 0 = none ∧ ¬ FindRight nestedStore c 0 := by
  let c : Components := ⟨[116] :: List.replicate 7 [97], by decide, by decide⟩
  have hcall : outputTypeFields nestedStore c.names 0 = none := by
    rw [outputTypeFields_eq]
    decide
  refine ⟨c, ?_, hcall, ?_⟩
  · simp [c, nestedName, splitNames, DOT, TYPE_MAX_DEPTH, List.findIdx?_cons]
  · rintro ⟨hit, res, h, -⟩
    rw [hcall] at h
    cases h

end Srcinv.Hacking
