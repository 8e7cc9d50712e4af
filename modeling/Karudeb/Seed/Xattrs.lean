import Karudeb.Lib.Path

/-!
# Archive member paths

`safe_member_path` of the script that writes the ownership of a root file system
to extended attributes: which path it gives for the name of an archive member.

* `safeMemberPath_contained` : a path it gives is the root or lies under it.
* `safeMemberPath_iff` : when a name that does not climb gets its path.
* `safeMemberPath_skips` : such a name that is skipped.
-/

namespace Seed

/-- A character of a string of the script. -/
abbrev CodePoint := Fin 0x110000

/-- A string of the script. -/
abbrev Str := List CodePoint

/-- The separator and the dot of POSIX paths. -/
def posix : Path.Alphabet CodePoint := ⟨47, 46, by decide⟩

/-! ## The source -/

/-- `while name.startswith("./"): name = name[2:]`. -/
def stripDotSlash : Str → Str
  | c :: d :: name =>
    if c = posix.dot ∧ d = posix.sep then stripDotSlash name else c :: d :: name
  | name => name

/-- `safe_member_path`, in the working directory `cwd`.  `none` is the `None` of
the script, an error the `ValueError` that `commonpath` raises. -/
def safeMemberPath (cwd root name : Str) : Except String (Option Str) :=
  let name := stripDotSlash name
  if name = [] ∨ name = [posix.dot] then .ok (some root)
  else if Path.isabs posix name then .ok none
  else
    let path := Path.abspath posix cwd (Path.join posix root (Path.normpath posix name))
    match Path.commonpath posix root path with
    | none => .error "Can't mix absolute and relative paths"
    | some common => if common ≠ root then .ok none else .ok (some path)

/-! ## The strip loop -/

/-- `n` times `"./"`. -/
def dotSlashes (n : ℕ) : Str := (List.replicate n [posix.dot, posix.sep]).flatten

theorem stripDotSlash_append (n : ℕ) (r : Str) :
    stripDotSlash (dotSlashes n ++ r) = stripDotSlash r := by
  induction n with
  | zero => rfl
  | succ n ih => exact ih

/-- The loop takes off some number of `"./"`. -/
theorem exists_stripDotSlash (name : Str) : ∃ n, name = dotSlashes n ++ stripDotSlash name := by
  induction name using stripDotSlash.induct with
  | case1 c d name h ih =>
    obtain ⟨n, hn⟩ := ih
    refine ⟨n + 1, ?_⟩
    rw [stripDotSlash, if_pos h, h.1, h.2]
    exact congrArg (fun l => posix.dot :: posix.sep :: l) hn
  | case2 c d name h => exact ⟨0, by rw [stripDotSlash, if_neg h]; rfl⟩
  | case3 name h =>
    refine ⟨0, ?_⟩
    cases name with
    | nil => rfl
    | cons c name =>
      cases name with
      | nil => rfl
      | cons d name => exact absurd rfl (h c d name)

/-- A string that the loop leaves alone is what it ends with when some number of
`"./"` stands before it. -/
theorem stripDotSlash_eq_iff {name r : Str} (hr : stripDotSlash r = r) :
    stripDotSlash name = r ↔ ∃ n, name = dotSlashes n ++ r := by
  constructor
  · rintro rfl
    exact exists_stripDotSlash name
  · rintro ⟨n, rfl⟩
    rw [stripDotSlash_append, hr]

theorem stripDotSlash_sep (r : Str) : stripDotSlash (posix.sep :: r) = posix.sep :: r := by
  cases r with
  | nil => rfl
  | cons c r => exact if_neg fun h => posix.ne h.1

theorem isabs_iff_exists (name : Str) :
    Path.isabs posix name = true ↔ ∃ r, name = posix.sep :: r := by
  rw [Path.isabs, decide_eq_true_iff]
  exact exists_congr fun r => eq_comm

/-- Where no absolute path appears, the loop keeps what the name normalises to. -/
theorem normpath_stripDotSlash {name : Str} (h : ¬Path.isabs posix (stripDotSlash name) = true) :
    Path.normpath posix (stripDotSlash name) = Path.normpath posix name := by
  obtain ⟨n, hn⟩ := exists_stripDotSlash name
  generalize stripDotSlash name = r at h hn
  rw [hn]
  clear hn
  induction n with
  | zero => rfl
  | succ n ih =>
    have hcons : dotSlashes (n + 1) ++ r = posix.dot :: posix.sep :: (dotSlashes n ++ r) := rfl
    have hrel : ¬Path.isabs posix (dotSlashes n ++ r) = true := by
      cases n with
      | zero => exact h
      | succ n =>
        rw [isabs_iff_exists]
        rintro ⟨r', hr'⟩
        exact posix.ne (List.cons.inj hr').1.symm
    rw [ih, hcons, Path.normpath_dot_sep hrel]

/-! ## Containment -/

/-- **What the script checks**, for a relative name. -/
theorem safeMemberPath_eq {k : ℕ} (hk : k ≠ 0) (hk' : k ≤ 2) {l : List Str}
    (hl : Path.Names posix l) (cwd : Str) {name : Str}
    (hne : ¬(stripDotSlash name = [] ∨ stripDotSlash name = [posix.dot]))
    (hrel : ¬Path.isabs posix (stripDotSlash name) = true) :
    Path.Names posix (Path.normComps posix k l
        (Path.split posix (Path.normpath posix (stripDotSlash name)))) ∧
      safeMemberPath cwd (Path.render posix k l) name
        = .ok (if k = 1 ∧ l <+: Path.normComps posix k l
              (Path.split posix (Path.normpath posix (stripDotSlash name))) then
            some (Path.render posix k (Path.normComps posix k l
              (Path.split posix (Path.normpath posix (stripDotSlash name))))) else none) := by
  have hnames : Path.Names posix (Path.normComps posix k l
      (Path.split posix (Path.normpath posix (stripDotSlash name)))) :=
    Path.names_normComps hk hl fun c => Path.no_sep_of_mem_split
  refine ⟨hnames, ?_⟩
  have hcommon := Path.commonpath_eq_left hk hk' hl hnames
  unfold safeMemberPath
  dsimp only
  rw [if_neg hne, if_neg hrel, Path.abspath_join hk hk' hl cwd (Path.not_isabs_normpath hrel)]
  rw [Path.commonpath_render hk hk hl hnames, Option.some_inj] at hcommon
  rw [Path.commonpath_render hk hk hl hnames]
  dsimp only
  by_cases h : k = 1 ∧ l <+: Path.normComps posix k l
      (Path.split posix (Path.normpath posix (stripDotSlash name)))
  · rw [if_neg (not_not_intro (hcommon.2 h)), if_pos h]
  · rw [if_pos (fun heq => h (hcommon.1 heq)), if_neg h]

/-- **Metadata stays under the root**: a path that the script gives is the root,
or an absolute path whose components go on from those of the root, and no
component of it is the dot or the double dot. -/
theorem safeMemberPath_contained (cwd cwd' arg name path : Str)
    (hroot : Path.isabs posix (Path.abspath posix cwd arg) = true)
    (h : safeMemberPath cwd' (Path.abspath posix cwd arg) name = .ok (some path)) :
    (path = Path.abspath posix cwd arg ∨
      Path.initialSlashes posix path
          = Path.initialSlashes posix (Path.abspath posix cwd arg) ∧
        Path.components posix (Path.abspath posix cwd arg) <+: Path.components posix path ∧
        Path.components posix (Path.abspath posix cwd arg) ≠ Path.components posix path) ∧
      Path.isabs posix path = true ∧
      ∀ c ∈ Path.components posix path, c ≠ [posix.dot] ∧ c ≠ posix.dotdot := by
  obtain ⟨k, l, hk, hk', hl, heq⟩ := Path.exists_render_abspath hroot
  rw [heq] at h ⊢
  have hdots : ∀ m : List Str, Path.Names posix m →
      ∀ c ∈ Path.components posix (Path.render posix k m),
        c ≠ [posix.dot] ∧ c ≠ posix.dotdot := by
    intro m hm c hc
    rw [Path.components_render hm.solid] at hc
    exact ⟨(hm c hc).ne_dot, (hm c hc).ne_dotdot⟩
  have habs : ∀ m : List Str, Path.isabs posix (Path.render posix k m) = true :=
    fun m => decide_eq_true (Path.sep_prefix_render hk m)
  by_cases hne : stripDotSlash name = [] ∨ stripDotSlash name = [posix.dot]
  · rw [safeMemberPath, if_pos hne, Except.ok.injEq, Option.some_inj] at h
    rw [← h]
    exact ⟨.inl rfl, habs l, hdots l hl⟩
  · by_cases hrel : Path.isabs posix (stripDotSlash name) = true
    · rw [safeMemberPath, if_neg hne, if_pos hrel, Except.ok.injEq] at h
      exact nomatch h
    · obtain ⟨hnames, hout⟩ := safeMemberPath_eq hk hk' hl cwd' hne hrel
      rw [hout, Except.ok.injEq, Option.ite_none_right_eq_some, Option.some_inj] at h
      obtain ⟨⟨-, hpre⟩, rfl⟩ := h
      refine ⟨?_, habs _, hdots _ hnames⟩
      rw [Path.initialSlashes_render hk' hnames.solid, Path.initialSlashes_render hk' hl.solid,
        Path.components_render hl.solid, Path.components_render hnames.solid]
      by_cases hl' : l = Path.normComps posix k l
          (Path.split posix (Path.normpath posix (stripDotSlash name)))
      · exact .inl (congrArg _ hl'.symm)
      · exact .inr ⟨rfl, hpre, hl'⟩

/-- A name that climbs out of a directory and back in. -/
theorem safeMemberPath_contained_climb :
    Path.components posix (Path.abspath posix [47] [47, 114]) <+:
      Path.components posix [47, 114, 47, 98] := by
  have h := safeMemberPath_contained [47] [47] [47, 114] [97, 47, 46, 46, 47, 98]
    [47, 114, 47, 98] (by decide) (by decide)
  rcases h.1 with h | h
  · exact absurd h (by decide)
  · exact h.2.1

/-! ## Skipped names -/

/-- The path of a name under the root: the root itself for a name that normalises
to the dot. -/
def memberPath (root name : Str) : Str :=
  if Path.normpath posix name = [posix.dot] then root
  else Path.join posix root (Path.normpath posix name)

/-- The names that get their path: what the strip loop leaves is the root, or no
absolute path and the root does not start with two separators. -/
def Kept (root name : Str) : Prop :=
  (∃ n, name = dotSlashes n ∨ name = dotSlashes n ++ [posix.dot]) ∨
    (¬∃ n r, name = dotSlashes n ++ posix.sep :: r) ∧ ¬[posix.sep, posix.sep] <+: root

theorem kept_iff (root name : Str) :
    Kept root name ↔ (stripDotSlash name = [] ∨ stripDotSlash name = [posix.dot]) ∨
      ¬Path.isabs posix (stripDotSlash name) = true ∧ ¬[posix.sep, posix.sep] <+: root := by
  unfold Kept
  refine or_congr ?_ (and_congr_left fun _ => not_congr ?_)
  · rw [exists_or, stripDotSlash_eq_iff rfl, stripDotSlash_eq_iff rfl]
    simp only [List.append_nil]
  · rw [isabs_iff_exists, exists_comm]
    exact exists_congr fun r => (stripDotSlash_eq_iff (stripDotSlash_sep r)).symm

/-- A relative name that does not climb, below the root. -/
theorem normComps_memberPath {k : ℕ} (hk : k ≠ 0) {l : List Str} (hl : Path.Names posix l)
    {name : Str} (hrel : ¬Path.isabs posix name = true)
    (hclimb : (Path.split posix (Path.normpath posix name)).head? ≠ some posix.dotdot) :
    ∃ m, Path.Names posix m ∧
      Path.normComps posix k l (Path.split posix (Path.normpath posix name)) = l ++ m ∧
      memberPath (Path.render posix k l) name = Path.render posix k (l ++ m) := by
  rcases Path.normpath_of_not_climb hrel hclimb with hdot | ⟨m, hne, hm, heq⟩
  · refine ⟨[], fun _ h => absurd h List.not_mem_nil, ?_, ?_⟩
    · rw [hdot, List.append_nil]
      rfl
    · rw [memberPath, if_pos hdot, List.append_nil]
  · have hdot : Path.normpath posix name ≠ [posix.dot] := by
      intro h
      have hcomps := congrArg (Path.split posix) (heq.symm.trans h)
      rw [Path.split_joinSep (fun c hc => (hm c hc).no_sep) hne] at hcomps
      exact (hm _ (hcomps ▸ List.mem_singleton_self [posix.dot])).ne_dot rfl
    refine ⟨m, hm, ?_, ?_⟩
    · rw [heq, Path.split_joinSep (fun c hc => (hm c hc).no_sep) hne, Path.normComps_names hm]
    · rw [memberPath, if_neg hdot, heq, Path.join_render_joinSep hk hl.solid hm.solid hne]

/-- **No safe member is skipped, but two kinds**: a name whose normal form does not
climb gets the path of that form under the root exactly when the strip loop makes no
absolute path of it and the root does not start with two separators, or the loop
already leaves the root. -/
theorem safeMemberPath_iff (cwd cwd' arg name : Str)
    (hroot : Path.isabs posix (Path.abspath posix cwd arg) = true)
    (hclimb : (Path.split posix (Path.normpath posix name)).head? ≠ some posix.dotdot) :
    safeMemberPath cwd' (Path.abspath posix cwd arg) name
        = .ok (some (memberPath (Path.abspath posix cwd arg) name)) ↔
      Kept (Path.abspath posix cwd arg) name := by
  obtain ⟨k, l, hk, hk', hl, heq⟩ := Path.exists_render_abspath hroot
  rw [heq, kept_iff, Path.two_sep_prefix_render hk hk' hl.solid]
  by_cases hne : stripDotSlash name = [] ∨ stripDotSlash name = [posix.dot]
  · refine iff_of_true ?_ (.inl hne)
    have hrel : ¬Path.isabs posix (stripDotSlash name) = true := by
      rcases hne with h | h
      · rw [h]
        decide
      · rw [h]
        decide
    have hdot : Path.normpath posix name = [posix.dot] := by
      rw [← normpath_stripDotSlash hrel]
      rcases hne with h | h
      · rw [h]
        decide
      · rw [h]
        decide
    rw [safeMemberPath, if_pos hne, memberPath, if_pos hdot]
  · rw [or_iff_right hne]
    by_cases hrel : Path.isabs posix (stripDotSlash name) = true
    · rw [safeMemberPath, if_neg hne, if_pos hrel]
      refine iff_of_false (fun h => ?_) fun h => h.1 hrel
      exact nomatch Except.ok.inj h
    · rw [← normpath_stripDotSlash hrel] at hclimb
      obtain ⟨m, -, hcomps, hpath⟩ := normComps_memberPath hk hl hrel hclimb
      have hmember : memberPath (Path.render posix k l) name
          = memberPath (Path.render posix k l) (stripDotSlash name) := by
        unfold memberPath
        rw [normpath_stripDotSlash hrel]
      rw [(safeMemberPath_eq hk hk' hl cwd' hne hrel).2, hmember, hpath, hcomps,
        Except.ok.injEq, Option.ite_none_right_eq_some]
      constructor
      · intro h
        refine ⟨hrel, ?_⟩
        rw [h.1.1]
        decide
      · rintro ⟨-, h⟩
        refine ⟨⟨?_, List.prefix_append l m⟩, rfl⟩
        omega

/-- A name with dots and doubled separators. -/
theorem safeMemberPath_iff_dots :
    safeMemberPath [47] (Path.abspath posix [47] [47, 114]) [46, 47, 97, 47, 47, 98]
      = .ok (some [47, 114, 47, 97, 47, 98]) := by
  have h := safeMemberPath_iff [47] [47] [47, 114] [46, 47, 97, 47, 47, 98] (by decide)
    (by decide)
  have hkept : Kept (Path.abspath posix [47] [47, 114]) [46, 47, 97, 47, 47, 98] := by
    rw [kept_iff]
    decide
  exact h.2 hkept

example : safeMemberPath [47] (Path.abspath posix [47] [47, 47, 114]) [120] = .ok none := by
  decide

/-- **A relative name that is skipped**: the strip loop leaves `"/x"` of `".//x"`, whose
normal form is `"x"`. -/
theorem safeMemberPath_skips :
    Path.isabs posix (Path.abspath posix [47] [47, 114]) = true ∧
      ¬Path.isabs posix [46, 47, 47, 120] = true ∧
      (Path.split posix (Path.normpath posix [46, 47, 47, 120])).head? ≠ some posix.dotdot ∧
      memberPath (Path.abspath posix [47] [47, 114]) [46, 47, 47, 120] = [47, 114, 47, 120] ∧
      safeMemberPath [47] (Path.abspath posix [47] [47, 114]) [46, 47, 47, 120] = .ok none := by
  decide

end Seed
