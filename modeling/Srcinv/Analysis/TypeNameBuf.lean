import Mathlib.Data.List.TakeWhile
import Srcinv.Lib.Cursor
import Srcinv.Analysis.GccNode

/-!
# The buffer of a generated type name (`gen_type_name`, `include/si_gcc.h`)

A record or union without a name is called after its fields: up to `FIELD_NAME_MAX` of their names
are copied one after the other, then its code, the number of its fields and its place.  The buffer
is the caller's; its size is an argument that the function does not look at.

* `genTypeName_fits_iff` — exactly when the name ends inside the buffer.
* `genTypeNameAt_text` — what stands there is the name that the symbol tables know.
* `wide_record_overruns` — eight names of 31 characters are more than `NAME_MAX` bytes.
-/

namespace Srcinv.Analysis

open Srcinv.Lib

/-! ## The code -/

/-- What `strlen` sees of bytes that are followed by a zero. -/
def cString (s : Name) : Name := s.takeWhile fun b => b != 0

/-- `sep`. -/
def nameSep : Name := bytesOf "_"

/-- The loop over the fields. -/
def genFieldLoop : Cursor UInt8 → Nat → List FieldTree → Option (Cursor UInt8)
  | c, _, [] => some c
  | c, copied, f :: fs =>
    match f.name with
    | none => genFieldLoop c copied fs
    | some id =>
      if copied < FIELD_NAME_MAX then
        match getNodeName id with
        | none => none
        | some id =>
          let tmpName := cString id
          if tmpName = [] then genFieldLoop c copied fs
          else
            let c := (c.put (nameSep ++ [0])).skip nameSep.length
            let c := (c.put (tmpName ++ [0])).skip tmpName.length
            genFieldLoop c (copied + 1) fs
      else genFieldLoop c copied fs

/-- The numbers at the end of the name. -/
def typeNumbers (t : TypeTree) (locFile : Nat) (xloc : XLoc) : Name :=
  bytesOf ("_" ++ toString t.code ++ "_" ++ toString t.fields.length ++ "_" ++
    toString locFile ++ "_" ++ toString xloc.line ++ "_" ++ toString xloc.column)

/-- `snprintf` into `tmp_name`. -/
def typeSuffix (t : TypeTree) (locFile : Nat) (xloc : XLoc) : Name :=
  (typeNumbers t locFile xloc).take (NAME_MAX - 1)

/-- `gen_type_name`, with the buffer at the start of `mem`. -/
def genTypeNameAt (mem : Nat → UInt8) (t : TypeTree) (locFile : Nat) (xloc : XLoc) :
    Option (Cursor UInt8) :=
  if t.kind = .other then some (.start mem)
  else
    (genFieldLoop (.start mem) 0 t.fields).map fun c => c.put (typeSuffix t locFile xloc ++ [0])

/-! ## What is copied -/

/-- The names of fields that the loop copies when it may copy `room` more. -/
def copiedNames (room : Nat) (fields : List FieldTree) : List Name :=
  (((fields.filterMap FieldTree.name).map cString).filter fun id => id ≠ []).take room

/-- A name with its separator. -/
def sepName (id : Name) : Name := nameSep ++ id

/-- How many bytes the name of a record or union takes with its final zero. -/
def typeNameRoom (t : TypeTree) (locFile : Nat) (xloc : XLoc) : Nat :=
  ((copiedNames FIELD_NAME_MAX t.fields).map fun id => 1 + id.length).sum +
    (typeSuffix t locFile xloc).length + 1

/-- Nothing is written behind the buffer, and the name ends in it. -/
def NameFits (t : TypeTree) (namelen : Nat) (c : Cursor UInt8) : Prop :=
  c.top ≤ namelen ∧ (t.kind = .other ∨ ∃ k, k < namelen ∧ c.mem k = 0)

section Loop

variable {c c' : Cursor UInt8} {t : TypeTree} {mem : Nat → UInt8} {locFile namelen : Nat}
  {xloc : XLoc}

theorem finalZero : ([0] : Name).length ≤ 1 := Nat.le_refl 1

/-- The loop adds the names it copies to the text. -/
theorem genFieldLoop_wrote : ∀ {fields : List FieldTree} {c : Cursor UInt8} {copied : Nat}
    {text : Name}, Wrote c text → genFieldLoop c copied fields = some c' →
      Wrote c' (text ++ ((copiedNames (FIELD_NAME_MAX - copied) fields).map sepName).flatten)
  | [], _, _, _, hw, h => by
    cases h
    simpa [copiedNames] using hw
  | f :: fs, c, copied, text, hw, h => by
    unfold genFieldLoop at h
    cases hname : f.name with
    | none =>
      rw [hname] at h
      have hrec := genFieldLoop_wrote hw h
      simpa [copiedNames, hname] using hrec
    | some id =>
      simp only [hname] at h
      split at h
      · rename_i hroom
        cases hid : getNodeName id with
        | none => simp [hid] at h
        | some id' =>
          have hsame : id' = id := by
            unfold getNodeName at hid
            split at hid
            · cases hid
            · exact (Option.some.inj hid).symm
          simp only [hid, hsame] at h
          split at h
          · rename_i hempty
            have hrec := genFieldLoop_wrote hw h
            simpa [copiedNames, hname, hempty] using hrec
          · rename_i hne
            have hsep := hw.append nameSep finalZero
            have hput := hsep.append (cString id) finalZero
            have hrec := genFieldLoop_wrote hput h
            obtain ⟨room, hroom'⟩ : ∃ room, FIELD_NAME_MAX - copied = room + 1 :=
              ⟨FIELD_NAME_MAX - copied - 1, by omega⟩
            have hless : FIELD_NAME_MAX - (copied + 1) = room := by omega
            rw [hless] at hrec
            simpa [copiedNames, hname, hne, hroom', sepName, List.append_assoc] using hrec
      · rename_i hfull
        have hrec := genFieldLoop_wrote hw h
        have hzero : FIELD_NAME_MAX - copied = 0 := by omega
        rw [hzero] at hrec ⊢
        simpa [copiedNames] using hrec

/-- The text of the whole name. -/
def typeNameText (t : TypeTree) (locFile : Nat) (xloc : XLoc) : Name :=
  ((copiedNames FIELD_NAME_MAX t.fields).map sepName).flatten ++ typeSuffix t locFile xloc

theorem typeNameText_length (t : TypeTree) (locFile : Nat) (xloc : XLoc) :
    (typeNameText t locFile xloc).length + 1 = typeNameRoom t locFile xloc := by
  unfold typeNameText typeNameRoom
  rw [List.length_append, List.length_flatten, List.map_map]
  have hlen : List.length ∘ sepName = fun id => 1 + id.length := by
    funext id
    simp [sepName, nameSep, bytesOf, Nat.add_comm]
  rw [hlen]

/-- What is written is the name and its final zero. -/
theorem genTypeNameAt_wrote (hkind : t.kind ≠ .other)
    (h : genTypeNameAt mem t locFile xloc = some c) :
    c.top = typeNameRoom t locFile xloc ∧
      readRange c.mem 0 (typeNameText t locFile xloc ++ [0]).length =
        typeNameText t locFile xloc ++ [0] := by
  unfold genTypeNameAt at h
  rw [if_neg hkind] at h
  obtain ⟨c', hloop, rfl⟩ := Option.map_eq_some_iff.mp h
  have hw := genFieldLoop_wrote (Wrote.start mem) hloop
  rw [List.nil_append, Nat.sub_zero] at hw
  have hlong : 0 < (typeSuffix t locFile xloc ++ [0]).length := by simp
  have hfin := hw.finish hlong
  rw [← List.append_assoc] at hfin
  refine ⟨?_, hfin.2⟩
  rw [hfin.1, ← typeNameText_length, List.length_append]
  rfl

/-- The last cell written has the final zero. -/
theorem genTypeNameAt_zero (hkind : t.kind ≠ .other)
    (h : genTypeNameAt mem t locFile xloc = some c) :
    c.mem (typeNameText t locFile xloc).length = 0 := by
  have hread := (genTypeNameAt_wrote hkind h).2
  rw [List.length_append, readRange_add] at hread
  have hlast := (List.append_inj hread (readRange_length _ _ _)).2
  simpa [readRange] using hlast

/-- **The name ends inside the buffer exactly when the names of the first fields and the numbers
    have room in it.** -/
theorem genTypeName_fits_iff (h : genTypeNameAt mem t locFile xloc = some c) :
    NameFits t namelen c ↔ t.kind = .other ∨ typeNameRoom t locFile xloc ≤ namelen := by
  by_cases hkind : t.kind = .other
  · refine iff_of_true ⟨?_, Or.inl hkind⟩ (Or.inl hkind)
    unfold genTypeNameAt at h
    rw [if_pos hkind] at h
    cases h
    exact Nat.zero_le namelen
  · have htop := (genTypeNameAt_wrote hkind h).1
    rw [or_iff_right hkind]
    constructor
    · intro hfits
      rw [← htop]
      exact hfits.1
    · intro hroom
      refine ⟨by omega, Or.inr ⟨(typeNameText t locFile xloc).length, ?_,
        genTypeNameAt_zero hkind h⟩⟩
      have := typeNameText_length t locFile xloc
      omega

/-- Identifiers of ordinary length are copied without a `BUG`. -/
theorem genFieldLoop_total : ∀ {fields : List FieldTree} (c : Cursor UInt8) (copied : Nat),
    (∀ f ∈ fields, ∀ id, f.name = some id → 0 < id.length ∧ id.length < NAME_MAX) →
      ∃ c', genFieldLoop c copied fields = some c'
  | [], c, _, _ => ⟨c, rfl⟩
  | f :: fs, c, copied, hids => by
    have hrest := fun f' hf' => hids f' (List.mem_cons_of_mem f hf')
    unfold genFieldLoop
    cases hname : f.name with
    | none => exact genFieldLoop_total c copied hrest
    | some id =>
      obtain ⟨hpos, hlt⟩ := hids f List.mem_cons_self id hname
      have hid : getNodeName id = some id := if_neg (by omega)
      dsimp only
      split
      · rw [hid]
        dsimp only
        split
        · exact genFieldLoop_total c copied hrest
        · exact genFieldLoop_total _ _ hrest
      · exact genFieldLoop_total c copied hrest

theorem genTypeNameAt_total (mem : Nat → UInt8) (t : TypeTree) (locFile : Nat) (xloc : XLoc)
    (hids : ∀ f ∈ t.fields, ∀ id, f.name = some id → 0 < id.length ∧ id.length < NAME_MAX) :
    ∃ c, genTypeNameAt mem t locFile xloc = some c := by
  unfold genTypeNameAt
  split
  · exact ⟨_, rfl⟩
  · obtain ⟨c, hc⟩ := genFieldLoop_total (.start mem) 0 hids
    rw [hc]
    exact ⟨_, rfl⟩

/-! ## The name in the symbol tables -/

theorem cString_eq {s : Name} (h : 0 ∉ s) : cString s = s := by
  refine List.takeWhile_eq_self_iff.mpr fun b hb => ?_
  rw [bne_iff_ne]
  rintro rfl
  exact h hb

/-- Identifiers without a zero are copied as they are. -/
theorem genFieldNames_eq : ∀ {fields : List FieldTree} {copied : Nat} {name : Name},
    (∀ f ∈ fields, ∀ id, f.name = some id → 0 ∉ id) →
      genFieldNames copied fields = some name →
        name = ((copiedNames (FIELD_NAME_MAX - copied) fields).map sepName).flatten
  | [], _, _, _, h => by
    cases h
    simp [copiedNames]
  | f :: fs, copied, name, hids, h => by
    have hrest := fun f' hf' => hids f' (List.mem_cons_of_mem f hf')
    unfold genFieldNames at h
    cases hname : f.name with
    | none =>
      rw [hname] at h
      simpa [copiedNames, hname] using genFieldNames_eq hrest h
    | some id =>
      simp only [hname] at h
      split at h
      · rename_i hroom
        obtain ⟨id', hid, h⟩ := Option.bind_eq_some_iff.mp h
        obtain ⟨rest, hrec, rfl⟩ := Option.map_eq_some_iff.mp h
        unfold getNodeName at hid
        split at hid
        · cases hid
        rename_i hlen
        cases hid
        have hcut := cString_eq (hids f List.mem_cons_self id hname)
        have hne : id ≠ [] := by
          rintro rfl
          exact hlen (Or.inl rfl)
        obtain ⟨room, hroom'⟩ : ∃ room, FIELD_NAME_MAX - copied = room + 1 :=
          ⟨FIELD_NAME_MAX - copied - 1, by omega⟩
        have hless : FIELD_NAME_MAX - (copied + 1) = room := by omega
        rw [genFieldNames_eq hrest hrec, hless]
        simp [copiedNames, hname, hcut, hne, hroom', sepName, nameSep, List.append_assoc]
      · rename_i hfull
        have hrec := genFieldNames_eq hrest h
        have hzero : FIELD_NAME_MAX - copied = 0 := by omega
        rw [hzero] at hrec ⊢
        simpa [copiedNames] using hrec

/-- What the buffer has is the name that the symbol tables know, when the numbers are not cut. -/
theorem genTypeNameAt_text (hkind : t.kind ≠ .other)
    (hids : ∀ f ∈ t.fields, ∀ id, f.name = some id → 0 ∉ id)
    (hnum : (typeNumbers t locFile xloc).length < NAME_MAX) {name : Name}
    (hname : genTypeName t locFile xloc = some name)
    (h : genTypeNameAt mem t locFile xloc = some c) :
    readRange c.mem 0 (name ++ [0]).length = name ++ [0] := by
  unfold genTypeName at hname
  rw [if_neg hkind] at hname
  obtain ⟨names, hnames, rfl⟩ := Option.map_eq_some_iff.mp hname
  have hsame : names ++ typeNumbers t locFile xloc = typeNameText t locFile xloc := by
    rw [genFieldNames_eq hids hnames, typeNameText, typeSuffix, List.take_of_length_le (by omega)]
    rfl
  change readRange c.mem 0 (names ++ typeNumbers t locFile xloc ++ [0]).length =
    names ++ typeNumbers t locFile xloc ++ [0]
  rw [hsame]
  exact (genTypeNameAt_wrote hkind h).2

end Loop

/-! ## Names that do not fit -/

/-- A record of eight fields whose names have 31 characters. -/
def wideRecord : TypeTree where
  code := 17
  kind := .record
  canonical := 0
  hasValues := true
  name := .null
  fields := List.replicate 8 ⟨some (List.replicate 31 97), ⟨none, 0, 0⟩⟩

/-- A record of one field. -/
def smallRecord : TypeTree :=
  { wideRecord with fields := [⟨some [97], ⟨none, 0, 0⟩⟩] }

/-- The names of the fields alone take 256 bytes. -/
theorem wide_record_overruns :
    ∃ c, genTypeNameAt (fun _ => 0) wideRecord 0 ⟨none, 1, 1⟩ = some c ∧
      ¬ NameFits wideRecord NAME_MAX c := by
  obtain ⟨c, hc⟩ := genTypeNameAt_total (fun _ => 0) wideRecord 0 ⟨none, 1, 1⟩ (by
    intro f hf id hid
    rw [List.eq_of_mem_replicate hf] at hid
    cases hid
    decide)
  refine ⟨c, hc, fun hfits => ?_⟩
  have htop := (genTypeNameAt_wrote (by decide) hc).1
  have hnames : ((copiedNames FIELD_NAME_MAX wideRecord.fields).map fun id =>
    1 + id.length).sum = 256 := by decide
  have hle := hfits.1
  rw [htop, typeNameRoom, hnames] at hle
  simp only [NAME_MAX] at hle
  omega

/-- A small record fits. -/
theorem genTypeName_fits_small :
    ∃ c, genTypeNameAt (fun _ => 0) smallRecord 0 ⟨none, 1, 1⟩ = some c ∧
      NameFits smallRecord NAME_MAX c := by
  obtain ⟨c, hc⟩ := genTypeNameAt_total (fun _ => 0) smallRecord 0 ⟨none, 1, 1⟩ (by
    intro f hf id hid
    rw [List.mem_singleton.mp hf] at hid
    cases hid
    decide)
  exact ⟨c, hc, (genTypeName_fits_iff hc).mpr (Or.inr (by decide))⟩

end Srcinv.Analysis
