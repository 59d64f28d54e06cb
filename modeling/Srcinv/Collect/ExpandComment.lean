import Srcinv.Lib.Cursor

/-!
# Placeholders in a module's comment (`expand_comment`, `collect/collect.c`)

A comment may contain `${SOPATH}`, `${RESFILE}` and `${TPROJECT}`.  A first pass over it counts the
bytes of the expanded comment, a second one writes them into a buffer of that size.  Strings are
given without their final zero.

* `Splits` — how a comment falls into texts, placeholders and a rest.
* `expandComment_exact` — the passes agree exactly when there is text behind the last placeholder.
* `resfile_at_end` — otherwise the final zero is written behind the buffer, or not at all.
-/

namespace Srcinv.Collect

open Srcinv.Lib

/-! ## The code -/

/-- The strings that are put in for placeholders. -/
structure ExpandEnv where
  path : List UInt8
  defTmpdir : List UInt8
  srcId : List UInt8
  targetObject : Option (List UInt8)

inductive Placeholder where
  | sopath
  | resfile
  | tproject
  deriving DecidableEq, Repr

def asciiBytes (s : String) : List UInt8 := s.toList.map fun c => c.toNat.toUInt8

/-- `tolower`. -/
def toLower (b : UInt8) : UInt8 := if 65 ≤ b ∧ b ≤ 90 then b + 32 else b

/-- `!strncasecmp(s, key, strlen(key))`. -/
def startsNoCase (s key : List UInt8) : Bool := (s.take key.length).map toLower = key.map toLower

/-- Where `needle` occurs first. -/
def strstr (needle : List UInt8) : List UInt8 → Option Nat
  | [] => if needle.isPrefixOf [] then some 0 else none
  | b :: s => if needle.isPrefixOf (b :: s) then some 0 else (strstr needle s).map (· + 1)

/-- Where a byte occurs first. -/
def strchrAt (s : List UInt8) (b : UInt8) : Option Nat := s.findIdx? (· == b)

/-- The placeholder whose name starts at `s`. -/
def placeholderAt (s : List UInt8) : Option Placeholder :=
  if startsNoCase s (asciiBytes "SOPATH") then some .sopath
  else if startsNoCase s (asciiBytes "RESFILE") then some .resfile
  else if startsNoCase s (asciiBytes "TPROJECT") then some .tproject
  else none

/-- What the first pass adds for a placeholder. -/
def Placeholder.count (E : ExpandEnv) : Placeholder → Nat
  | .sopath => E.path.length
  | .resfile => E.defTmpdir.length + E.srcId.length + 2 + 7
  | .tproject =>
    match E.targetObject with
    | some t => t.length
    | none => 0

/-- `"%s/%s/resfile"`. -/
def resfilePath (E : ExpandEnv) : List UInt8 :=
  E.defTmpdir ++ asciiBytes "/" ++ E.srcId ++ asciiBytes "/resfile"

/-- What the second pass writes for a placeholder: `sprintf` adds a zero, `memcpy` does not. -/
def Placeholder.write (E : ExpandEnv) (c : Cursor UInt8) : Placeholder → Cursor UInt8
  | .sopath => (c.put E.path).skip E.path.length
  | .resfile =>
    (c.put (resfilePath E ++ [0])).skip (E.defTmpdir.length + E.srcId.length + 2 + 7)
  | .tproject =>
    match E.targetObject with
    | some t => (c.put (t ++ [0])).skip t.length
    | none => c

/-- `"${"`. -/
def OPENING : List UInt8 := [36, 123]

/-- `'}'`. -/
def CLOSING : UInt8 := 125

/-- The loop of the first pass; `none` is an error. -/
def countPass (E : ExpandEnv) (s : List UInt8) : Option Nat :=
  if _h : s = [] then some 0
  else
    match strstr OPENING s with
    | none => some (s.length + 1)
    | some i =>
      match placeholderAt (s.drop (i + 2)) with
      | none => none
      | some p =>
        match strchrAt (s.drop i) CLOSING with
        | none => none
        | some j => (countPass E (s.drop (i + j + 1))).map fun n => i + p.count E + n
termination_by s.length
decreasing_by
  have := List.length_pos_of_ne_nil _h
  rw [List.length_drop]
  omega

/-- The loop of the second pass; `none` is a placeholder that does not end. -/
def writePass (E : ExpandEnv) (s : List UInt8) (c : Cursor UInt8) : Option (Cursor UInt8) :=
  if _h : s = [] then some c
  else
    match strstr OPENING s with
    | none => some (c.put (s ++ [0]))
    | some i =>
      let c := (c.put (s.take i)).skip i
      let c :=
        match placeholderAt (s.drop (i + 2)) with
        | some p => p.write E c
        | none => c
      match strchrAt (s.drop i) CLOSING with
      | none => none
      | some j => writePass E (s.drop (i + j + 1)) c
termination_by s.length
decreasing_by
  have := List.length_pos_of_ne_nil _h
  rw [List.length_drop]
  omega

/-- `expand_comment` with a buffer at the start of `mem`: `some none` is a returned `NULL`, else the
    size of the buffer and what was written. -/
def expandComment (E : ExpandEnv) (mem : Nat → UInt8) (comment : List UInt8) :
    Option (Option (Nat × Cursor UInt8)) :=
  match countPass E comment with
  | none => some none
  | some len => (writePass E comment (.start mem)).map fun c => some (len, c)

/-! ## Comments -/

/-- The texts of a comment with the placeholders behind them, and the text at its end. -/
structure Template where
  parts : List (List UInt8 × Placeholder)
  rest : List UInt8

/-- How a comment is split at its placeholders. -/
inductive Splits : List UInt8 → Template → Prop where
  | rest {s : List UInt8} (hopen : strstr OPENING s = none) : Splits s ⟨[], s⟩
  | part {s : List UInt8} {i j : Nat} {p : Placeholder} {T : Template}
      (hopen : strstr OPENING s = some i) (hname : placeholderAt (s.drop (i + 2)) = some p)
      (hclose : strchrAt (s.drop i) CLOSING = some j) (hrest : Splits (s.drop (i + j + 1)) T) :
      Splits s ⟨(s.take i, p) :: T.parts, T.rest⟩

/-- What stands for a placeholder. -/
def Placeholder.text (E : ExpandEnv) : Placeholder → List UInt8
  | .sopath => E.path
  | .resfile => resfilePath E
  | .tproject => E.targetObject.getD []

/-- A part with its placeholder substituted. -/
def partText (E : ExpandEnv) (part : List UInt8 × Placeholder) : List UInt8 :=
  part.1 ++ part.2.text E

/-- The comment with every placeholder substituted. -/
def Template.text (E : ExpandEnv) (T : Template) : List UInt8 :=
  (T.parts.map (partText E)).flatten ++ T.rest

variable {E : ExpandEnv} {s : List UInt8} {T T' : Template} {c c' : Cursor UInt8}
  {text : List UInt8} {i j : Nat}

/-- The count of the first pass is the length of what the second one writes. -/
theorem Placeholder.text_length (p : Placeholder) : (p.text E).length = p.count E := by
  cases p with
  | sopath => rfl
  | resfile =>
    have hslash : (asciiBytes "/").length = 1 := rfl
    have hname : (asciiBytes "/resfile").length = 8 := rfl
    simp only [Placeholder.text, Placeholder.count, resfilePath, List.length_append, hslash, hname]
    omega
  | tproject =>
    unfold Placeholder.text Placeholder.count
    cases E.targetObject <;> rfl

theorem strstr_nil : strstr OPENING [] = none := rfl

theorem strstr_le {needle : List UInt8} :
    ∀ {s : List UInt8} {i : Nat}, strstr needle s = some i → i ≤ s.length
  | [], i, h => by
    unfold strstr at h
    split at h
    · cases h
      exact Nat.le_refl 0
    · cases h
  | b :: s, i, h => by
    unfold strstr at h
    split at h
    · cases h
      exact Nat.zero_le _
    · obtain ⟨k, hk, rfl⟩ := Option.map_eq_some_iff.mp h
      exact Nat.succ_le_succ (strstr_le hk)

/-- A comment splits in one way. -/
theorem Splits.unique (h : Splits s T) (h' : Splits s T') : T = T' := by
  induction h generalizing T' with
  | rest hopen =>
    cases h' with
    | rest => rfl
    | part hopen' =>
      rw [hopen] at hopen'
      cases hopen'
  | part hopen hname hclose hrest ih =>
    cases h' with
    | rest hopen' =>
      rw [hopen] at hopen'
      cases hopen'
    | part hopen' hname' hclose' hrest' =>
      rw [hopen] at hopen'
      cases hopen'
      rw [hname] at hname'
      cases hname'
      rw [hclose] at hclose'
      cases hclose'
      rw [ih hrest']

/-! ## The first pass -/

/-- What the first pass returns for a template. -/
def Template.count (E : ExpandEnv) (T : Template) : Nat :=
  (T.parts.map fun part => (partText E part).length).sum +
    if T.rest = [] then 0 else T.rest.length + 1

theorem countPass_rest (hopen : strstr OPENING s = none) :
    countPass E s = some (if s = [] then 0 else s.length + 1) := by
  by_cases hnil : s = []
  · rw [countPass, dif_pos hnil, if_pos hnil]
  · rw [countPass, dif_neg hnil, if_neg hnil]
    simp only [hopen]

theorem ne_nil_of_strstr (hopen : strstr OPENING s = some i) : s ≠ [] := by
  rintro rfl
  rw [strstr_nil] at hopen
  cases hopen

theorem countPass_part {p : Placeholder} (hopen : strstr OPENING s = some i)
    (hname : placeholderAt (s.drop (i + 2)) = some p)
    (hclose : strchrAt (s.drop i) CLOSING = some j) :
    countPass E s = (countPass E (s.drop (i + j + 1))).map fun n => i + p.count E + n := by
  rw [countPass, dif_neg (ne_nil_of_strstr hopen)]
  simp only [hopen, hname, hclose]

theorem countPass_splits (h : Splits s T) : countPass E s = some (T.count E) := by
  induction h with
  | rest hopen =>
    rw [countPass_rest hopen]
    simp [Template.count]
  | @part s i j p T hopen hname hclose hrest ih =>
    rw [countPass_part hopen hname hclose, ih, Option.map_some]
    have hlen : (partText E (s.take i, p)).length = i + p.count E := by
      rw [partText, List.length_append, List.length_take_of_le (strstr_le hopen),
        Placeholder.text_length]
    simp only [Template.count, List.map_cons, List.sum_cons, hlen, Nat.add_assoc]

/-- A comment that the first pass accepts can be split. -/
theorem splits_of_countPass : ∀ {s : List UInt8} {n : Nat}, countPass E s = some n → ∃ T, Splits s T
  | s, n, h => by
    unfold countPass at h
    split at h
    · rename_i hnil
      exact ⟨_, .rest (by rw [hnil]; rfl)⟩
    · rename_i hne
      cases hopen : strstr OPENING s with
      | none => exact ⟨_, .rest hopen⟩
      | some i =>
        simp only [hopen] at h
        cases hname : placeholderAt (s.drop (i + 2)) with
        | none => simp [hname] at h
        | some p =>
          simp only [hname] at h
          cases hclose : strchrAt (s.drop i) CLOSING with
          | none => simp [hclose] at h
          | some j =>
            simp only [hclose] at h
            obtain ⟨m, hm, -⟩ := Option.map_eq_some_iff.mp h
            have hpos := List.length_pos_of_ne_nil hne
            have hshort : (s.drop (i + j + 1)).length < s.length := by
              rw [List.length_drop]
              omega
            obtain ⟨T, hT⟩ := splits_of_countPass hm
            exact ⟨_, .part hopen hname hclose hT⟩
termination_by s => s.length

/-! ## The second pass -/

/-- A placeholder is written behind the text that is there. -/
theorem Placeholder.write_wrote (hw : Wrote c text) (p : Placeholder) :
    Wrote (p.write E c) (text ++ p.text E) := by
  have hzero : ([0] : List UInt8).length ≤ 1 := Nat.le_refl 1
  cases p with
  | sopath => exact hw.append_exact E.path
  | resfile =>
    have hlen : (Placeholder.text E .resfile).length = Placeholder.count E .resfile :=
      Placeholder.text_length .resfile
    have happ := hw.append (resfilePath E) hzero
    change (resfilePath E).length = _ at hlen
    rw [hlen] at happ
    exact happ
  | tproject =>
    unfold Placeholder.write Placeholder.text
    cases E.targetObject with
    | none => simpa using hw
    | some t => exact hw.append t hzero

theorem writePass_rest (hopen : strstr OPENING s = none) (hne : s ≠ []) :
    writePass E s c = some (c.put (s ++ [0])) := by
  rw [writePass, dif_neg hne]
  simp only [hopen]

theorem writePass_part {p : Placeholder} (hopen : strstr OPENING s = some i)
    (hname : placeholderAt (s.drop (i + 2)) = some p)
    (hclose : strchrAt (s.drop i) CLOSING = some j) :
    writePass E s c =
      writePass E (s.drop (i + j + 1)) (p.write E ((c.put (s.take i)).skip i)) := by
  rw [writePass, dif_neg (ne_nil_of_strstr hopen)]
  simp only [hopen, hname, hclose]

/-- Behind the last placeholder the second pass stops without a final zero of its own; a text at the
    end is written with one. -/
theorem writePass_wrote (h : Splits s T) : ∀ {c : Cursor UInt8} {text : List UInt8}, Wrote c text →
    ∃ c', writePass E s c = some c' ∧
      if T.rest = [] then Wrote c' (text ++ T.text E)
      else c'.top = (text ++ T.text E ++ [0]).length ∧
        readRange c'.mem 0 (text ++ T.text E ++ [0]).length = text ++ T.text E ++ [0] := by
  induction h with
  | @rest s hopen =>
    intro c text hw
    have htext : Template.text E ⟨[], s⟩ = s := rfl
    rw [htext]
    by_cases hnil : s = []
    · refine ⟨c, by rw [writePass, dif_pos hnil], ?_⟩
      rw [if_pos hnil, hnil, List.append_nil]
      exact hw
    · refine ⟨_, writePass_rest hopen hnil, ?_⟩
      rw [if_neg hnil, List.append_assoc]
      exact hw.finish (by simp)
  | @part s i j p T hopen hname hclose hrest ih =>
    intro c text hw
    have htake : (s.take i).length = i := List.length_take_of_le (strstr_le hopen)
    have hbefore := hw.append_exact (s.take i)
    rw [htake] at hbefore
    obtain ⟨c', hc', hend⟩ := ih (Placeholder.write_wrote (E := E) hbefore p)
    refine ⟨c', by rw [writePass_part hopen hname hclose, hc'], ?_⟩
    have htext : text ++ s.take i ++ p.text E ++ T.text E =
        text ++ Template.text E ⟨(s.take i, p) :: T.parts, T.rest⟩ := by
      simp [Template.text, partText, List.append_assoc]
    rw [htext] at hend
    exact hend

/-! ## The passes together -/

/-- A comment without a template is rejected; else the buffer has as many bytes as are written, and
    they are the expanded comment with its final zero. -/
def PassesAgree (E : ExpandEnv) (mem : Nat → UInt8) (comment : List UInt8) : Prop :=
  match expandComment E mem comment with
  | none => False
  | some none => ∀ T, ¬ Splits comment T
  | some (some (len, c)) => c.top = len ∧
      ∃ T, Splits comment T ∧ readRange c.mem 0 len = T.text E ++ [0]

theorem expandComment_rejects (h : ∀ T, ¬ Splits s T) (mem : Nat → UInt8) :
    expandComment E mem s = some none := by
  cases hcount : countPass E s with
  | none =>
    unfold expandComment
    rw [hcount]
  | some n =>
    obtain ⟨T, hT⟩ := splits_of_countPass hcount
    exact absurd hT (h T)

/-- The number of bytes of the expanded comment. -/
theorem Template.count_eq (T : Template) :
    T.count E = (T.text E).length + if T.rest = [] then 0 else 1 := by
  unfold Template.count Template.text
  rw [List.length_append, List.length_flatten, List.map_map]
  change _ = (T.parts.map fun part => (partText E part).length).sum + _ + _
  split
  · rename_i hnil
    simp [hnil]
  · rw [Nat.add_assoc]

/-- **The two passes agree exactly when the comment is rejected or has text behind its last
    placeholder.** -/
theorem expandComment_exact (E : ExpandEnv) (mem : Nat → UInt8) (comment : List UInt8) :
    PassesAgree E mem comment ↔ ∀ T, Splits comment T → T.rest ≠ [] := by
  by_cases hsplits : ∃ T, Splits comment T
  · obtain ⟨T, hT⟩ := hsplits
    obtain ⟨c, hc, hend⟩ := writePass_wrote (E := E) hT (Wrote.start mem)
    have hrun : expandComment E mem comment = some (some (T.count E, c)) := by
      unfold expandComment
      rw [countPass_splits hT]
      dsimp only
      rw [hc]
      rfl
    rw [List.nil_append] at hend
    unfold PassesAgree
    rw [hrun]
    constructor
    · rintro ⟨-, T', hT', hread⟩ U hU hnil
      -- the text without its final zero fills the buffer
      obtain rfl := hT.unique hT'
      obtain rfl := hT.unique hU
      have hlen := congrArg List.length hread
      rw [readRange_length, Template.count_eq, if_pos hnil, List.length_append] at hlen
      simp at hlen
    · intro hrest
      have hne := hrest T hT
      rw [if_neg hne] at hend
      have hlen : T.count E = (T.text E ++ [0]).length := by
        rw [Template.count_eq, if_neg hne, List.length_append]
        rfl
      exact ⟨hend.1.trans hlen.symm, T, hT, by rw [hlen]; exact hend.2⟩
  · have hnone : ∀ T, ¬ Splits comment T := fun T hT => hsplits ⟨T, hT⟩
    refine iff_of_true ?_ fun T hT => absurd hT (hnone T)
    unfold PassesAgree
    rw [expandComment_rejects hnone mem]
    exact hnone

/-- A src with the number 1 under `/tmp`. -/
def tmpEnv : ExpandEnv where
  path := asciiBytes "/c.so"
  defTmpdir := asciiBytes "/tmp"
  srcId := asciiBytes "1"
  targetObject := none

/-- A comment that is the place of the resfile. -/
def resfileComment : List UInt8 := asciiBytes "${RESFILE}"

/-- `sprintf` writes its zero behind the 14 bytes of the buffer. -/
theorem resfile_at_end :
    ∃ c, expandComment tmpEnv (fun _ => 0) resfileComment = some (some (14, c)) ∧ c.top = 15 := by
  have hopen : strstr OPENING resfileComment = some 0 := by decide
  have hname : placeholderAt (resfileComment.drop (0 + 2)) = some .resfile := by decide
  have hclose : strchrAt (resfileComment.drop 0) CLOSING = some 9 := by decide
  have hnil : resfileComment.drop (0 + 9 + 1) = [] := by decide
  unfold expandComment
  rw [countPass_part hopen hname hclose, hnil, countPass, dif_pos rfl]
  dsimp only [Option.map_some]
  rw [writePass_part hopen hname hclose, hnil, writePass, dif_pos rfl]
  exact ⟨_, rfl, rfl⟩

end Srcinv.Collect
