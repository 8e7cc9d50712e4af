import Mathlib.Data.List.Basic
import Mathlib.Data.List.Infix

/-!
# Paths as strings

The lexical functions on slash-separated paths, as POSIX systems have them, over
any alphabet with a separator and a dot.  A path is a string; nothing is looked
up in a file system.

* `normpath_of_isabs`, `normpath_of_not_isabs` : a normalised path, from its components.
* `exists_render_abspath` : an absolute path that `abspath` returns is separators and names.
* `abspath_join` : an absolute path joined with a relative one, entry by entry.
* `commonpath_eq_left` : when the common path of two absolute ones is the first.
* `normpath_of_not_climb` : a relative path that normalises to the dot or to names.
-/

namespace Path

/-- The characters that mean something in a path. -/
structure Alphabet (α : Type) where
  /-- The separator. -/
  sep : α
  /-- The dot. -/
  dot : α
  /-- They differ. -/
  ne : sep ≠ dot

/-! ## The functions -/

section Functions

variable {α : Type} [DecidableEq α] (A : Alphabet α)

/-- The component that names the directory above. -/
def Alphabet.dotdot : List α := [A.dot, A.dot]

/-- The pieces between the separators. -/
def split (p : List α) : List (List α) := p.splitOn A.sep

/-- Pieces with separators between them. -/
def joinSep (l : List (List α)) : List α := [A.sep].intercalate l

/-- `isabs`. -/
def isabs (p : List α) : Bool := decide ([A.sep] <+: p)

/-- How many leading separators count: two are kept, more than two are one. -/
def initialSlashes (p : List α) : ℕ :=
  if [A.sep, A.sep] <+: p ∧ ¬[A.sep, A.sep, A.sep] <+: p then 2
  else if [A.sep] <+: p then 1
  else 0

/-- A turn of the loop of `normpath` over the pieces. -/
def normStep (initial : ℕ) (comps : List (List α)) (comp : List α) : List (List α) :=
  if comp = [] ∨ comp = [A.dot] then comps
  else if comp ≠ A.dotdot ∨ (initial = 0 ∧ comps = []) ∨ comps.getLast? = some A.dotdot then
    comps ++ [comp]
  else comps.dropLast

/-- The components that the loop of `normpath` leaves. -/
def normComps (initial : ℕ) (comps : List (List α)) (l : List (List α)) : List (List α) :=
  l.foldl (normStep A initial) comps

/-- `normpath`. -/
def normpath (p : List α) : List α :=
  if p = [] then [A.dot]
  else
    let initial := initialSlashes A p
    let path := joinSep A (normComps A initial [] (split A p))
    let path := List.replicate initial A.sep ++ path
    if path = [] then [A.dot] else path

/-- `join`. -/
def join (p q : List α) : List α :=
  if [A.sep] <+: q then q
  else if p = [] ∨ [A.sep] <:+ p then p ++ q
  else p ++ A.sep :: q

/-- `abspath`, in the working directory `cwd`. -/
def abspath (cwd p : List α) : List α :=
  if isabs A p then normpath A p else normpath A (join A cwd p)

/-- The longest list that two lists begin with. -/
def commonPrefix {β : Type} [DecidableEq β] : List β → List β → List β
  | a :: l, b :: m => if a = b then a :: commonPrefix l m else []
  | _, _ => []

/-- The components `commonpath` compares. -/
def pathComps (p : List α) : List (List α) := (split A p).filter fun c => c ≠ [] ∧ c ≠ [A.dot]

/-- `commonpath` of two paths; there is none of an absolute and a relative one. -/
def commonpath (p q : List α) : Option (List α) :=
  if isabs A p = isabs A q then
    some ((if isabs A p then [A.sep] else []) ++
      joinSep A (commonPrefix (pathComps A p) (pathComps A q)))
  else none

end Functions

/-! ## Common prefixes -/

section CommonPrefix

variable {β : Type} [DecidableEq β]

theorem commonPrefix_isPrefix (l m : List β) : commonPrefix l m <+: l := by
  induction l generalizing m with
  | nil => exact List.prefix_rfl
  | cons a l ih =>
    cases m with
    | nil => exact List.nil_prefix
    | cons b m =>
      unfold commonPrefix
      split
      · exact List.cons_prefix_cons.2 ⟨rfl, ih m⟩
      · exact List.nil_prefix

/-- **All of a list is common** exactly with the lists it is a beginning of. -/
theorem commonPrefix_eq_left {l m : List β} : commonPrefix l m = l ↔ l <+: m := by
  induction l generalizing m with
  | nil => exact ⟨fun _ => List.nil_prefix, fun _ => rfl⟩
  | cons a l ih =>
    cases m with
    | nil => exact ⟨fun h => absurd h.symm (List.cons_ne_nil a l),
        fun h => absurd (List.prefix_nil.1 h) (List.cons_ne_nil a l)⟩
    | cons b m =>
      unfold commonPrefix
      rw [List.cons_prefix_cons]
      split
      · rename_i hab
        rw [List.cons.injEq, ih]
        exact and_congr_left fun _ => ⟨fun _ => hab, fun _ => rfl⟩
      · rename_i hab
        exact ⟨fun h => absurd h.symm (List.cons_ne_nil a l), fun h => absurd h.1 hab⟩

end CommonPrefix

/-! ## Names -/

section Names

variable {α : Type} {A : Alphabet α}

/-- A component that names an entry of a directory. -/
structure IsName (A : Alphabet α) (c : List α) : Prop where
  /-- It is not empty. -/
  ne_nil : c ≠ []
  /-- It is not the directory itself. -/
  ne_dot : c ≠ [A.dot]
  /-- It is not the directory above. -/
  ne_dotdot : c ≠ A.dotdot
  /-- It has no separator. -/
  no_sep : A.sep ∉ c

/-- Every component names an entry. -/
def Names (A : Alphabet α) (l : List (List α)) : Prop := ∀ c ∈ l, IsName A c

theorem Names.append {l m : List (List α)} (hl : Names A l) (hm : Names A m) :
    Names A (l ++ m) := by
  intro c hc
  rcases List.mem_append.1 hc with h | h
  · exact hl c h
  · exact hm c h

theorem Names.getLast_ne {l : List (List α)} (hl : Names A l) : l.getLast? ≠ some A.dotdot :=
  fun h => (hl _ (List.mem_of_getLast? h)).ne_dotdot rfl

/-- What is left of a relative path: climbs first, then names. -/
structure Relative (A : Alphabet α) (l : List (List α)) : Prop where
  /-- Every component is a name or a climb. -/
  comp : ∀ c ∈ l, c = A.dotdot ∨ IsName A c
  /-- If the first is a name, all are. -/
  names : l.head? ≠ some A.dotdot → Names A l

theorem Relative.nil : Relative A [] :=
  ⟨fun _ h => absurd h List.not_mem_nil, fun _ _ h => absurd h List.not_mem_nil⟩

theorem Relative.dropLast {l : List (List α)} (h : Relative A l) : Relative A l.dropLast := by
  refine ⟨fun c hc => h.comp c (List.mem_of_mem_dropLast hc), fun hhead c hc => ?_⟩
  refine h.names ?_ c (List.mem_of_mem_dropLast hc)
  obtain ⟨a, m, rfl⟩ := List.exists_cons_of_ne_nil (List.ne_nil_of_mem (List.mem_of_mem_dropLast hc))
  obtain ⟨b, m', rfl⟩ : ∃ b m', m = b :: m' := by
    refine List.exists_cons_of_ne_nil fun hm => ?_
    rw [hm] at hc
    exact absurd hc List.not_mem_nil
  exact hhead

theorem Relative.append {l : List (List α)} (h : Relative A l) {c : List α}
    (hc : c = A.dotdot ∧ (l = [] ∨ l.getLast? = some A.dotdot) ∨ IsName A c) :
    Relative A (l ++ [c]) := by
  constructor
  · intro d hd
    rcases List.mem_append.1 hd with hd | hd
    · exact h.comp d hd
    · rw [List.mem_singleton.1 hd]
      exact hc.imp And.left id
  · intro hhead
    rcases hc with ⟨rfl, rfl | hlast⟩ | hc
    · exact absurd rfl hhead
    · have hne : l ≠ [] := by
        rintro rfl
        exact nomatch hlast
      rw [List.head?_append_of_ne_nil _ hne] at hhead
      exact absurd hlast (h.names hhead).getLast_ne
    · refine Names.append ?_ fun d hd => by rwa [List.mem_singleton.1 hd]
      by_cases hne : l = []
      · rw [hne]
        exact fun _ h => absurd h List.not_mem_nil
      · rw [List.head?_append_of_ne_nil _ hne] at hhead
        exact h.names hhead

variable [DecidableEq α]

theorem no_sep_of_mem_split {p c : List α} (hc : c ∈ split A p) : A.sep ∉ c := by
  induction p generalizing c with
  | nil =>
    rw [split, List.splitOn_nil, List.mem_singleton] at hc
    rw [hc]
    exact List.not_mem_nil
  | cons a p ih =>
    rw [split, List.splitOn_cons_eq_if_modifyHead] at hc
    by_cases ha : a = A.sep
    · rw [if_pos (beq_iff_eq.2 ha)] at hc
      rcases List.mem_cons.1 hc with rfl | hc
      · exact List.not_mem_nil
      · exact ih hc
    · rw [if_neg (by simpa using ha)] at hc
      obtain ⟨d, l, hl⟩ := List.exists_cons_of_ne_nil (List.splitOn_ne_nil A.sep p)
      unfold split at ih
      rw [hl] at ih hc
      rcases List.mem_cons.1 hc with rfl | hc
      · rw [List.mem_cons, not_or]
        exact ⟨fun h => ha h.symm, ih List.mem_cons_self⟩
      · exact ih (List.mem_cons_of_mem d hc)

theorem split_joinSep {l : List (List α)} (hl : ∀ c ∈ l, A.sep ∉ c) (hne : l ≠ []) :
    split A (joinSep A l) = l :=
  List.splitOn_intercalate A.sep hl hne

/-- The separators in front of a string are empty pieces. -/
theorem split_replicate_append (k : ℕ) (p : List α) :
    split A (List.replicate k A.sep ++ p) = List.replicate k [] ++ split A p := by
  induction k with
  | zero => rfl
  | succ k ih =>
    rw [List.replicate_succ, List.cons_append, split, List.splitOn_cons_eq_if_modifyHead,
      if_pos (beq_iff_eq.2 rfl), List.replicate_succ, List.cons_append]
    exact congrArg _ ih

/-! ## Normalising components -/

theorem normStep_name {c : List α} (hc : IsName A c) (initial : ℕ) (l : List (List α)) :
    normStep A initial l c = l ++ [c] := by
  unfold normStep
  rw [if_neg (fun h => h.elim hc.ne_nil hc.ne_dot), if_pos (.inl hc.ne_dotdot)]

/-- Names are kept. -/
theorem normComps_names {m : List (List α)} (hm : Names A m) (initial : ℕ) (l : List (List α)) :
    normComps A initial l m = l ++ m := by
  unfold normComps
  induction m generalizing l with
  | nil => exact (List.append_nil l).symm
  | cons c m ih =>
    rw [List.foldl_cons, normStep_name (hm c List.mem_cons_self),
      ih fun d hd => hm d (List.mem_cons_of_mem c hd), List.append_assoc]
    rfl

/-- Empty pieces are dropped. -/
theorem normComps_replicate (initial k : ℕ) (l : List (List α)) :
    normComps A initial l (List.replicate k []) = l := by
  unfold normComps
  induction k with
  | zero => rfl
  | succ k ih =>
    rw [List.replicate_succ, List.foldl_cons, normStep, if_pos (.inl rfl)]
    exact ih

theorem normComps_append (initial : ℕ) (l m n : List (List α)) :
    normComps A initial l (m ++ n) = normComps A initial (normComps A initial l m) n :=
  List.foldl_append

/-- In an absolute path only names are left. -/
theorem names_normComps {initial : ℕ} (hi : initial ≠ 0) {l m : List (List α)} (hl : Names A l)
    (hm : ∀ c ∈ m, A.sep ∉ c) : Names A (normComps A initial l m) := by
  unfold normComps
  induction m generalizing l with
  | nil => exact hl
  | cons c m ih =>
    rw [List.foldl_cons]
    refine ih ?_ fun d hd => hm d (List.mem_cons_of_mem c hd)
    unfold normStep
    split
    · exact hl
    · rename_i hskip
      rw [not_or] at hskip
      split
      · rename_i hpush
        have hdd : c ≠ A.dotdot := by
          rcases hpush with h | h | h
          · exact h
          · exact absurd h.1 hi
          · exact absurd h hl.getLast_ne
        refine hl.append fun d hd => ?_
        rw [List.mem_singleton] at hd
        rw [hd]
        exact ⟨hskip.1, hskip.2, hdd, hm c List.mem_cons_self⟩
      · exact fun d hd => hl d (List.mem_of_mem_dropLast hd)

theorem relative_normComps {l m : List (List α)} (hl : Relative A l) (hm : ∀ c ∈ m, A.sep ∉ c) :
    Relative A (normComps A 0 l m) := by
  unfold normComps
  induction m generalizing l with
  | nil => exact hl
  | cons c m ih =>
    rw [List.foldl_cons]
    refine ih ?_ fun d hd => hm d (List.mem_cons_of_mem c hd)
    unfold normStep
    split
    · exact hl
    · rename_i hskip
      rw [not_or] at hskip
      split
      · rename_i hpush
        refine hl.append ?_
        by_cases hdd : c = A.dotdot
        · refine .inl ⟨hdd, ?_⟩
          rcases hpush with h | h | h
          · exact absurd hdd h
          · exact .inl h.2
          · exact .inr h
        · exact .inr ⟨hskip.1, hskip.2, hdd, hm c List.mem_cons_self⟩
      · exact hl.dropLast

end Names

/-! ## Rendered paths -/

section Render

variable {α : Type} (A : Alphabet α)

/-- The path with `k` separators in front of the components `l`. -/
def render (k : ℕ) (l : List (List α)) : List α := List.replicate k A.sep ++ joinSep A l

/-- What a component must not have to be read back. -/
def Solid (l : List (List α)) : Prop := ∀ c ∈ l, c ≠ [] ∧ A.sep ∉ c

variable {A}

theorem Names.solid {l : List (List α)} (h : Names A l) : Solid A l :=
  fun c hc => ⟨(h c hc).ne_nil, (h c hc).no_sep⟩

theorem Relative.solid {l : List (List α)} (h : Relative A l) : Solid A l := by
  intro c hc
  rcases h.comp c hc with rfl | h
  · refine ⟨List.cons_ne_nil _ _, fun hmem => ?_⟩
    rcases List.mem_cons.1 hmem with h | h
    · exact A.ne h
    · exact A.ne (List.mem_singleton.1 h)
  · exact ⟨h.ne_nil, h.no_sep⟩

theorem joinSep_cons {l : List (List α)} (hl : l ≠ []) (c : List α) :
    joinSep A (c :: l) = c ++ A.sep :: joinSep A l := by
  unfold joinSep
  rw [List.intercalate_cons_of_ne_nil hl, List.append_assoc]
  rfl

theorem joinSep_append {l m : List (List α)} (hm : m ≠ []) :
    joinSep A (l ++ m) = if l = [] then joinSep A m else joinSep A l ++ A.sep :: joinSep A m := by
  induction l with
  | nil => rfl
  | cons c l ih =>
    have hne : l ++ m ≠ [] := fun h => hm (List.append_eq_nil_iff.1 h).2
    rw [if_neg (List.cons_ne_nil c l), List.cons_append, joinSep_cons hne, ih]
    split
    · rename_i hl
      rw [hl, show joinSep A [c] = c from List.intercalate_singleton]
    · rename_i hl
      rw [joinSep_cons hl, List.append_assoc, List.cons_append]

/-- Solid components do not start with a separator. -/
theorem Solid.not_sep_head {l : List (List α)} (hl : Solid A l) :
    ¬[A.sep] <+: joinSep A l := by
  intro h
  cases l with
  | nil => exact List.cons_ne_nil _ _ (List.prefix_nil.1 h)
  | cons c l =>
    obtain ⟨hne, hsep⟩ := hl c List.mem_cons_self
    obtain ⟨a, c', rfl⟩ := List.exists_cons_of_ne_nil hne
    have hhead : ∃ r, joinSep A ((a :: c') :: l) = a :: r := by
      by_cases hl' : l = []
      · rw [hl']
        exact ⟨c', List.intercalate_singleton⟩
      · rw [joinSep_cons hl']
        exact ⟨_, rfl⟩
    obtain ⟨r, hr⟩ := hhead
    rw [hr, List.singleton_prefix_cons_iff] at h
    exact hsep (h ▸ List.mem_cons_self)

theorem Solid.joinSep_ne_nil {l : List (List α)} (hl : Solid A l) (hne : l ≠ []) :
    joinSep A l ≠ [] := by
  obtain ⟨c, l, rfl⟩ := List.exists_cons_of_ne_nil hne
  have hc := (hl c List.mem_cons_self).1
  intro h
  by_cases hl' : l = []
  · rw [hl'] at h
    exact hc (List.intercalate_singleton.symm.trans h)
  · rw [joinSep_cons hl'] at h
    exact hc (List.append_eq_nil_iff.1 h).1

/-- Solid components do not end with a separator. -/
theorem Solid.not_sep_suffix {l : List (List α)} (hl : Solid A l) :
    ¬[A.sep] <:+ joinSep A l := by
  induction l with
  | nil => exact fun h => List.cons_ne_nil _ _ (List.suffix_nil.1 h)
  | cons c l ih =>
    have hl' : Solid A l := fun d hd => hl d (List.mem_cons_of_mem c hd)
    by_cases hnil : l = []
    · rw [hnil, joinSep, List.intercalate_singleton]
      exact fun h => (hl c List.mem_cons_self).2 (h.subset List.mem_cons_self)
    · have hne := hl'.joinSep_ne_nil hnil
      rw [joinSep_cons hnil, List.singleton_suffix_iff_getLast?_eq_some, List.getLast?_append,
        List.getLast?_cons_of_ne_nil hne, List.getLast?_eq_some_getLast hne]
      intro h
      refine ih hl' ?_
      rw [List.singleton_suffix_iff_getLast?_eq_some, List.getLast?_eq_some_getLast hne]
      exact h

theorem sep_prefix_render {k : ℕ} (hk : k ≠ 0) (l : List (List α)) : [A.sep] <+: render A k l := by
  obtain ⟨n, rfl⟩ := Nat.exists_eq_succ_of_ne_zero hk
  exact ⟨_, rfl⟩

theorem two_sep_prefix_render {k : ℕ} (hk : k ≠ 0) (hk' : k ≤ 2) {l : List (List α)}
    (hl : Solid A l) : [A.sep, A.sep] <+: render A k l ↔ k = 2 := by
  have hcases : k = 1 ∨ k = 2 := by omega
  rcases hcases with rfl | rfl
  · exact iff_of_false (fun h => hl.not_sep_head (List.cons_prefix_cons.1 h).2) (by decide)
  · exact iff_of_true ⟨_, rfl⟩ rfl

variable [DecidableEq α]

/-- Leading separators are counted when they are at most two. -/
theorem initialSlashes_replicate_append {k : ℕ} (hk : k ≤ 2) {p : List α} (hp : ¬[A.sep] <+: p) :
    initialSlashes A (List.replicate k A.sep ++ p) = k := by
  unfold initialSlashes
  have hcases : k = 0 ∨ k = 1 ∨ k = 2 := by omega
  rcases hcases with rfl | rfl | rfl
  · have h₂ : ¬[A.sep, A.sep] <+: p := fun h => hp (List.IsPrefix.trans ⟨_, rfl⟩ h)
    rw [List.replicate_zero, List.nil_append, if_neg fun h => h₂ h.1, if_neg hp]
  · have h₂ : ¬[A.sep, A.sep] <+: [A.sep] ++ p := fun h => hp (List.cons_prefix_cons.1 h).2
    rw [List.replicate_one, if_neg fun h => h₂ h.1, if_pos ⟨p, rfl⟩]
  · have h₃ : ¬[A.sep, A.sep, A.sep] <+: [A.sep, A.sep] ++ p :=
      fun h => hp (List.cons_prefix_cons.1 (List.cons_prefix_cons.1 h).2).2
    exact if_pos ⟨⟨p, rfl⟩, h₃⟩

theorem initialSlashes_le (p : List α) : initialSlashes A p ≤ 2 := by
  unfold initialSlashes
  split
  · exact le_rfl
  · split <;> decide

/-- A path is absolute exactly when leading separators count. -/
theorem isabs_iff (p : List α) : isabs A p = true ↔ initialSlashes A p ≠ 0 := by
  unfold isabs initialSlashes
  rw [decide_eq_true_iff]
  split
  · rename_i h
    exact iff_of_true (List.IsPrefix.trans ⟨_, rfl⟩ h.1) (by decide)
  · split
    · rename_i h
      exact iff_of_true h (by decide)
    · rename_i h
      exact iff_of_false h (not_not_intro rfl)

theorem initialSlashes_render {k : ℕ} (hk : k ≤ 2) {l : List (List α)} (hl : Solid A l) :
    initialSlashes A (render A k l) = k :=
  initialSlashes_replicate_append hk hl.not_sep_head

/-- The pieces of solid components, put after a separator. -/
theorem split_joinSep_cons {l : List (List α)} (hl : Solid A l) (p : List α) :
    split A (joinSep A l ++ A.sep :: p) = (if l = [] then [[]] else l) ++ split A p := by
  unfold split
  rw [List.splitOn_append_cons_self]
  split
  · rename_i h
    rw [h]
    rfl
  · rename_i h
    exact congrArg (· ++ _) (split_joinSep (fun c hc => (hl c hc).2) h)

theorem split_render {l : List (List α)} (hl : Solid A l) (k : ℕ) :
    split A (render A k l) = List.replicate k [] ++ if l = [] then [[]] else l := by
  unfold render
  rw [split_replicate_append]
  split
  · rename_i h
    rw [h]
    rfl
  · rename_i h
    rw [split_joinSep (fun c hc => (hl c hc).2) h]

/-- The pieces that are not empty. -/
def components (A : Alphabet α) (p : List α) : List (List α) := (split A p).filter (· ≠ [])

theorem components_render {l : List (List α)} (hl : Solid A l) (k : ℕ) :
    components A (render A k l) = l := by
  unfold components
  rw [split_render hl, List.filter_append, List.filter_eq_nil_iff.2, List.nil_append]
  · split
    · rename_i h
      rw [h]
      rfl
    · exact List.filter_eq_self.2 fun c hc => decide_eq_true (hl c hc).1
  · intro c hc
    rw [List.eq_of_mem_replicate hc]
    exact fun h => of_decide_eq_true h rfl

theorem pathComps_render {l : List (List α)} (hl : Names A l) (k : ℕ) :
    pathComps A (render A k l) = l := by
  have hsplit : pathComps A (render A k l)
      = (components A (render A k l)).filter fun c => decide (c ≠ [A.dot]) := by
    unfold pathComps components
    rw [List.filter_filter]
    refine List.filter_congr fun c _ => ?_
    rw [Bool.decide_and, Bool.and_comm]
  rw [hsplit, components_render hl.solid]
  exact List.filter_eq_self.2 fun c hc => decide_eq_true (hl c hc).ne_dot

/-- **Rendered paths are equal** when their separators and their components are. -/
theorem render_inj {k k' : ℕ} (hk : k ≤ 2) (hk' : k' ≤ 2) {l l' : List (List α)}
    (hl : Solid A l) (hl' : Solid A l') : render A k l = render A k' l' ↔ k = k' ∧ l = l' := by
  constructor
  · intro h
    constructor
    · have h₁ := congrArg (initialSlashes A) h
      rwa [initialSlashes_render hk hl, initialSlashes_render hk' hl'] at h₁
    · have h₁ := congrArg (components A) h
      rwa [components_render hl, components_render hl'] at h₁
  · rintro ⟨rfl, rfl⟩
    rfl

/-! ## Normal paths -/

/-- **A normalised absolute path**, from its components. -/
theorem normpath_of_isabs {p : List α} (hp : isabs A p = true) :
    normpath A p
      = render A (initialSlashes A p) (normComps A (initialSlashes A p) [] (split A p)) := by
  have hne : p ≠ [] := by
    rintro rfl
    exact absurd hp (by rw [isabs_iff]; exact not_not_intro rfl)
  have hi := (isabs_iff p).1 hp
  unfold normpath
  rw [if_neg hne]
  refine if_neg fun h => hi ?_
  have hlen := congrArg List.length (List.append_eq_nil_iff.1 h).1
  rwa [List.length_replicate] at hlen

/-- **A normalised relative path**, from its components. -/
theorem normpath_of_not_isabs {p : List α} (hp : ¬isabs A p = true) :
    Relative A (normComps A 0 [] (split A p)) ∧
      normpath A p = if normComps A 0 [] (split A p) = [] then [A.dot]
        else joinSep A (normComps A 0 [] (split A p)) := by
  have hrel : Relative A (normComps A 0 [] (split A p)) :=
    relative_normComps Relative.nil fun c => no_sep_of_mem_split
  refine ⟨hrel, ?_⟩
  have hi : initialSlashes A p = 0 := by
    rw [isabs_iff, not_not] at hp
    exact hp
  unfold normpath
  by_cases hne : p = []
  · rw [if_pos hne, hne]
    rfl
  · rw [if_neg hne]
    dsimp only
    rw [hi, List.replicate_zero, List.nil_append]
    by_cases hl : normComps A 0 [] (split A p) = []
    · rw [hl]
      rfl
    · rw [if_neg (hrel.solid.joinSep_ne_nil hl), if_neg hl]

theorem not_isabs_normpath {p : List α} (hp : ¬isabs A p = true) :
    ¬isabs A (normpath A p) = true := by
  obtain ⟨hrel, heq⟩ := normpath_of_not_isabs hp
  rw [heq, isabs, decide_eq_true_iff]
  split
  · rw [List.singleton_prefix_cons_iff]
    exact A.ne
  · exact hrel.solid.not_sep_head

/-- **What `abspath` returns**, when it is absolute. -/
theorem exists_render_abspath {cwd p : List α} (h : isabs A (abspath A cwd p) = true) :
    ∃ k l, k ≠ 0 ∧ k ≤ 2 ∧ Names A l ∧ abspath A cwd p = render A k l := by
  have habs : ∃ q, isabs A q = true ∧ abspath A cwd p = normpath A q := by
    unfold abspath at h ⊢
    by_cases hp : isabs A p = true
    · exact ⟨p, hp, if_pos hp⟩
    · rw [if_neg hp] at h
      refine ⟨join A cwd p, ?_, if_neg hp⟩
      by_contra hq
      exact not_isabs_normpath hq h
  obtain ⟨q, hq, heq⟩ := habs
  have hi := (isabs_iff q).1 hq
  refine ⟨_, _, hi, initialSlashes_le q, ?_, heq.trans (normpath_of_isabs hq)⟩
  exact names_normComps hi (fun _ h => absurd h List.not_mem_nil) fun c => no_sep_of_mem_split

/-- A relative path joined to an absolute one, as strings. -/
theorem join_render {k : ℕ} (hk : k ≠ 0) {l : List (List α)} (hl : Solid A l) {q : List α}
    (hq : ¬[A.sep] <+: q) :
    join A (render A k l) q
      = List.replicate k A.sep ++ if l = [] then q else joinSep A l ++ A.sep :: q := by
  unfold join
  rw [if_neg hq]
  by_cases hnil : l = []
  · have hsuffix : [A.sep] <:+ render A k l := by
      obtain ⟨n, rfl⟩ := Nat.exists_eq_succ_of_ne_zero hk
      rw [hnil, render, List.replicate_succ']
      exact ⟨List.replicate n A.sep, (List.append_nil _).symm⟩
    rw [if_pos (.inr hsuffix), if_pos hnil, hnil, render]
    exact congrArg (· ++ q) (List.append_nil _)
  · have hne := hl.joinSep_ne_nil hnil
    have hsuffix : ¬[A.sep] <:+ render A k l := by
      have hlast := hl.not_sep_suffix
      rw [List.singleton_suffix_iff_getLast?_eq_some, List.getLast?_eq_some_getLast hne] at hlast
      rwa [render, List.singleton_suffix_iff_getLast?_eq_some, List.getLast?_append,
        List.getLast?_eq_some_getLast hne]
    have hroot : render A k l ≠ [] := fun h => hne (List.append_eq_nil_iff.1 h).2
    rw [if_neg (not_or.2 ⟨hroot, hsuffix⟩), if_neg hnil, render, List.append_assoc]

/-- Components joined to an absolute path. -/
theorem join_render_joinSep {k : ℕ} (hk : k ≠ 0) {l m : List (List α)} (hl : Solid A l)
    (hm : Solid A m) (hne : m ≠ []) :
    join A (render A k l) (joinSep A m) = render A k (l ++ m) := by
  rw [join_render hk hl hm.not_sep_head, render, joinSep_append hne]

/-- **A relative path joined to an absolute one**, entry by entry. -/
theorem abspath_join {k : ℕ} (hk : k ≠ 0) (hk' : k ≤ 2) {l : List (List α)} (hl : Names A l)
    (cwd : List α) {q : List α} (hq : ¬isabs A q = true) :
    abspath A cwd (join A (render A k l) q) = render A k (normComps A k l (split A q)) := by
  rw [isabs, decide_eq_true_iff] at hq
  have hrest : ¬[A.sep] <+: (if l = [] then q else joinSep A l ++ A.sep :: q) ∧
      normComps A k [] (split A (if l = [] then q else joinSep A l ++ A.sep :: q))
        = normComps A k l (split A q) := by
    split
    · rename_i hnil
      exact ⟨hq, by rw [hnil]⟩
    · rename_i hnil
      constructor
      · intro h
        refine hl.solid.not_sep_head (List.prefix_of_prefix_length_le h ⟨_, rfl⟩ ?_)
        exact List.length_pos_iff.2 (hl.solid.joinSep_ne_nil hnil)
      · rw [split_joinSep_cons hl.solid, if_neg hnil, normComps_append, normComps_names hl,
          List.nil_append]
  have hinit := initialSlashes_replicate_append hk' hrest.1
  have habs : isabs A (List.replicate k A.sep ++
      if l = [] then q else joinSep A l ++ A.sep :: q) = true := by
    rw [isabs_iff, hinit]
    exact hk
  rw [join_render hk hl.solid hq, abspath, if_pos habs, normpath_of_isabs habs, hinit,
    split_replicate_append, normComps_append, normComps_replicate, hrest.2]

/-- **The common path of two absolute ones.** -/
theorem commonpath_render {k k' : ℕ} (hk : k ≠ 0) (hk' : k' ≠ 0) {l l' : List (List α)}
    (hl : Names A l) (hl' : Names A l') :
    commonpath A (render A k l) (render A k' l') = some (render A 1 (commonPrefix l l')) := by
  have h : isabs A (render A k l) = true := decide_eq_true (sep_prefix_render hk l)
  have h' : isabs A (render A k' l') = true := decide_eq_true (sep_prefix_render hk' l')
  rw [commonpath, if_pos (h.trans h'.symm), if_pos h, pathComps_render hl, pathComps_render hl']
  rfl

/-- The common path is the first one, spelled with one separator, exactly when the
second lies under it. -/
theorem commonpath_eq_left {k : ℕ} (hk : k ≠ 0) (hk' : k ≤ 2) {l l' : List (List α)}
    (hl : Names A l) (hl' : Names A l') :
    commonpath A (render A k l) (render A k l') = some (render A k l) ↔ k = 1 ∧ l <+: l' := by
  have hsub : Solid A (commonPrefix l l') := fun c hc =>
    hl.solid c ((commonPrefix_isPrefix l l').subset hc)
  rw [commonpath_render hk hk hl hl', Option.some_inj, render_inj (by decide) hk' hsub hl.solid,
    commonPrefix_eq_left]
  exact and_congr_left fun _ => eq_comm

/-! ## Relative paths -/

/-- A dot in front of a relative path changes nothing. -/
theorem normpath_dot_sep {q : List α} (hq : ¬isabs A q = true) :
    normpath A (A.dot :: A.sep :: q) = normpath A q := by
  have hdot : ¬isabs A (A.dot :: A.sep :: q) = true := by
    rw [isabs, decide_eq_true_iff, List.singleton_prefix_cons_iff]
    exact A.ne
  have hsplit : split A (A.dot :: A.sep :: q) = [A.dot] :: split A q := by
    have h := List.splitOn_append_cons_self (a := A.sep) [A.dot] q
    have hsep : A.sep ∉ [A.dot] := fun h => A.ne (List.mem_singleton.1 h)
    rwa [List.splitOn_eq_singleton hsep] at h
  have hcomps : normComps A 0 [] (split A (A.dot :: A.sep :: q)) = normComps A 0 [] (split A q) := by
    rw [hsplit, normComps, List.foldl_cons, normStep, if_pos (.inr rfl), normComps]
  rw [(normpath_of_not_isabs hdot).2, (normpath_of_not_isabs hq).2, hcomps]

/-- **A relative path that does not climb**: it normalises to the dot or to names. -/
theorem normpath_of_not_climb {q : List α} (hq : ¬isabs A q = true)
    (hclimb : (split A (normpath A q)).head? ≠ some A.dotdot) :
    normpath A q = [A.dot] ∨ ∃ m, m ≠ [] ∧ Names A m ∧ normpath A q = joinSep A m := by
  obtain ⟨hrel, heq⟩ := normpath_of_not_isabs hq
  by_cases hnil : normComps A 0 [] (split A q) = []
  · exact .inl (by rw [heq, if_pos hnil])
  · rw [if_neg hnil] at heq
    refine .inr ⟨_, hnil, hrel.names ?_, heq⟩
    rwa [heq, split_joinSep (fun c hc => (hrel.solid c hc).2) hnil] at hclimb

end Render

end Path
