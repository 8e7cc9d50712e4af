import Karudeb.Seed.Main

/-!
# What the script leaves behind

Whatever the archive holds, on every host and whichever system calls fail:

* `main_contained` : every system call is on a path under the root, and nothing but three
  attributes and the permission bits of files there is changed.
* `modes_restored` : no permission bit is added for good, unless the call that takes it back
  fails; and none is lost but the set-group-id bit that `chmod` clears by itself.
* `main_seeded` : what a reported success means for each member.
-/

namespace Seed

open Effect

variable {ι : Type} [DecidableEq ι] {host : Host ι} {w w' : World ι}

/-! ## System calls -/

/-- A call succeeds on the file of its path, or fails and changes nothing. -/
theorem call_cases (host : Host ι) (c : Call) (w : World ι) :
    (∃ i, host.resolve c.path = some i ∧ host.call c w = .ok (w.file i)
        { file := Function.update w.file i (c.effect (host.dropsSgid i) (w.file i))
          log := w.log ++ [(c, none)] }) ∨
      ∃ e, host.call c w = .error e { w with log := w.log ++ [(c, some e)] } := by
  unfold Host.call
  cases host.fails w.log c with
  | some e => exact .inr ⟨e, rfl⟩
  | none =>
    cases host.resolve c.path with
    | none => exact .inr ⟨ENOENT, rfl⟩
    | some i => exact .inl ⟨i, rfl, rfl⟩

/-- All that calls with the property `good` can do. -/
structure Within (host : Host ι) (good : Call → Prop) (w w' : World ι) : Prop where
  log : ∃ calls, w'.log = w.log ++ calls ∧ ∀ c ∈ calls, good c.1
  file : ∀ i, (∀ c, good c → host.resolve c.path ≠ some i) → w'.file i = w.file i
  xattr : ∀ i name, (∀ path value, ¬good (.setxattr path name value)) →
    (w'.file i).xattrs name = (w.file i).xattrs name
  perms : ∀ i, (∀ path perms, ¬good (.chmod path perms)) →
    (w'.file i).perms = (w.file i).perms

variable {good good' : Call → Prop}

instance : Std.Refl (Within host good) where
  refl w := ⟨⟨[], by simp, by simp⟩, fun _ _ => rfl, fun _ _ _ => rfl, fun _ _ => rfl⟩

instance : IsTrans (World ι) (Within host good) where
  trans w w' w'' h h' := by
    obtain ⟨calls, hlog, hgood⟩ := h.log
    obtain ⟨calls', hlog', hgood'⟩ := h'.log
    refine ⟨⟨calls ++ calls', ?_, ?_⟩, ?_, ?_, ?_⟩
    · rw [hlog', hlog, List.append_assoc]
    · intro c hc
      rcases List.mem_append.1 hc with hc | hc
      · exact hgood c hc
      · exact hgood' c hc
    · exact fun i hi => (h'.file i hi).trans (h.file i hi)
    · exact fun i name hn => (h'.xattr i name hn).trans (h.xattr i name hn)
    · exact fun i hp => (h'.perms i hp).trans (h.perms i hp)

omit [DecidableEq ι] in
theorem Within.mono (h : Within host good w w') (hgood : ∀ c, good c → good' c) :
    Within host good' w w' := by
  obtain ⟨calls, hlog, hall⟩ := h.log
  exact ⟨⟨calls, hlog, fun c hc => hgood _ (hall c hc)⟩,
    fun i hi => h.file i fun c hc => hi c (hgood c hc),
    fun i name hn => h.xattr i name fun path value hc => hn path value (hgood _ hc),
    fun i hp => h.perms i fun path perms hc => hp path perms (hgood _ hc)⟩

theorem keeps_call {c : Call} (hc : good c) : Keeps (Within host good) (host.call c) := by
  intro w
  have hlog : ∀ r : Option Errno, ∃ calls, w.log ++ [(c, r)] = w.log ++ calls ∧
      ∀ c ∈ calls, good c.1 := by
    intro r
    refine ⟨[(c, r)], rfl, ?_⟩
    rintro _ (_ | ⟨_, ⟨⟩⟩)
    exact hc
  rcases call_cases host c w with ⟨i, hi, heq⟩ | ⟨e, heq⟩
  · rw [after_of_ok heq]
    refine ⟨hlog none, ?_, ?_, ?_⟩
    · intro j hj
      exact Function.update_of_ne (fun hji => hj c hc (hi.trans (congrArg some hji.symm))) _ _
    · intro j name hn
      by_cases hji : j = i
      · subst hji
        dsimp only
        rw [Function.update_self]
        cases c with
        | lstat | chmod => rfl
        | setxattr path name' value =>
          refine Function.update_of_ne ?_ _ _
          rintro rfl
          exact hn path value hc
      · exact congrArg (Inode.xattrs · name) (Function.update_of_ne hji _ _)
    · intro j hp
      by_cases hji : j = i
      · subst hji
        dsimp only
        rw [Function.update_self]
        cases c with
        | lstat | setxattr => rfl
        | chmod path perms => exact absurd hc (hp path perms)
      · exact congrArg Inode.perms (Function.update_of_ne hji _ _)
  · rw [after_of_error heq]
    exact ⟨hlog (some e), fun _ _ => rfl, fun _ _ _ => rfl, fun _ _ => rfl⟩

/-! ## One member -/

/-- The attributes that the script writes for a member. -/
def metadata (m : Member) : List (String × List ℕ) :=
  [(xattrPrefix ++ "uid", packU32 m.uid), (xattrPrefix ++ "gid", packU32 m.gid),
    (xattrPrefix ++ "mode", packU32 (memberMode m))]

/-- A call of `seed`. -/
def Writes (path : Str) (m : Member) : Call → Prop
  | .setxattr path' name value => path' = path ∧ (name, value) ∈ metadata m
  | _ => False

/-- A call of `lexists` or `seed_member`. -/
def Seeds (path : Str) (m : Member) : Call → Prop
  | .setxattr path' name value => path' = path ∧ (name, value) ∈ metadata m
  | .lstat path' | .chmod path' _ => path' = path

theorem Seeds.path_eq {path : Str} {m : Member} {c : Call} (h : Seeds path m c) :
    c.path = path := by
  cases c with
  | setxattr path' name value => exact h.1
  | lstat path' | chmod path' perms => exact h

theorem Writes.seeds {path : Str} {m : Member} {c : Call} (h : Writes path m c) :
    Seeds path m c := by
  cases c with
  | setxattr path' name value => exact h
  | lstat | chmod => exact h.elim

section Member

variable {path : Str} {m : Member}

theorem keeps_setU32Xattr {name : String} {value : ℤ}
    (hmem : (xattrPrefix ++ name, packU32 value) ∈ metadata m) :
    Keeps (Within host (Writes path m)) (setU32Xattr host path name value) := by
  have hcall : Keeps (Within host (Writes path m))
      (host.call (.setxattr path (xattrPrefix ++ name) (packU32 value))) := keeps_call ⟨rfl, hmem⟩
  exact hcall.bind fun _ => Keeps.pure ()

theorem keeps_seed : Keeps (Within host (Writes path m)) (seed host path m) := by
  have huid : Keeps (Within host (Writes path m)) (setU32Xattr host path "uid" m.uid) :=
    keeps_setU32Xattr (by simp [metadata])
  have hgid : Keeps (Within host (Writes path m)) (setU32Xattr host path "gid" m.gid) :=
    keeps_setU32Xattr (by simp [metadata])
  have hmode : Keeps (Within host (Writes path m)) (setU32Xattr host path "mode" (memberMode m)) :=
    keeps_setU32Xattr (by simp [metadata])
  exact huid.bind fun _ => hgid.bind fun _ => hmode

theorem keeps_seedReadOnly (e : Errno) :
    Keeps (Within host (Seeds path m)) (seedReadOnly host path m e) := by
  have hseed : Keeps (Within host (Seeds path m)) (seed host path m) :=
    keeps_seed.mono fun _ _ h => h.mono fun _ => Writes.seeds
  have hlstat : Keeps (Within host (Seeds path m)) (host.call (.lstat path)) := keeps_call rfl
  have hchmod : ∀ perms, Keeps (Within host (Seeds path m)) (host.call (.chmod path perms)) :=
    fun _ => keeps_call rfl
  refine hlstat.bind fun st => ?_
  split
  · exact Keeps.throw e
  · exact (hchmod _).bind fun _ => hseed.tryFinally (hchmod _)

theorem keeps_seedMember : Keeps (Within host (Seeds path m)) (seedMember host path m) := by
  refine Keeps.tryCatch (keeps_seed.mono fun _ _ h => h.mono fun _ => Writes.seeds) fun e => ?_
  split
  · exact keeps_seedReadOnly e
  · exact Keeps.throw e

theorem keeps_trySeed : Keeps (Within host (Seeds path m)) (trySeed host path m) :=
  (keeps_seedMember.bind fun _ => Keeps.pure none).tryCatch fun e => Keeps.pure (some e)

theorem keeps_lexists : Keeps (Within host (Seeds path m)) (lexists host path) := by
  have hcall : Keeps (Within host (Seeds path m)) (host.call (.lstat path)) := keeps_call rfl
  exact (hcall.bind fun _ => Keeps.pure true).tryCatch fun _ => Keeps.pure false

end Member

/-! ## The loop -/

/-- A call for one of the members. -/
def SeedsAny (cwd root : Str) (members : List Member) (c : Call) : Prop :=
  ∃ m ∈ members, ∃ path, safeMemberPath cwd root m.name = .ok (some path) ∧ Seeds path m c

theorem keeps_seedAll (cwd root : Str) (members : List Member) (c : Counts) :
    Keeps (Within host (SeedsAny cwd root members)) (seedAll host cwd root members c) := by
  induction members generalizing c with
  | nil => exact Keeps.pure _
  | cons m members ih =>
    have hrest : ∀ c, Keeps (Within host (SeedsAny cwd root (m :: members)))
        (seedAll host cwd root members c) := fun c =>
      (ih c).mono fun _ _ h => h.mono fun _ ⟨m', hm, hc⟩ => ⟨m', List.mem_cons_of_mem m hm, hc⟩
    unfold seedAll
    split
    · exact Keeps.pure _
    · exact hrest _
    · rename_i path hpath
      have hseeds : ∀ c, Seeds path m c → SeedsAny cwd root (m :: members) c :=
        fun c hc => ⟨m, List.mem_cons_self, path, hpath, hc⟩
      refine Keeps.bind (keeps_lexists.mono fun _ _ h => h.mono hseeds) fun there => ?_
      split
      · refine Keeps.bind (keeps_trySeed.mono fun _ _ h => h.mono hseeds) fun r => ?_
        split
        · exact hrest _
        · split
          · exact hrest _
          · exact Keeps.pure _
      · exact hrest _

theorem seedAll_within {cwd root : Str} {members : List Member} {c : Counts} {r : Report}
    (h : seedAll host cwd root members c w = .ok r w') :
    Within host (SeedsAny cwd root members) w w' := by
  have hkeeps : Within host (SeedsAny cwd root members) w
      (after (seedAll host cwd root members c) w) := keeps_seedAll cwd root members c w
  rwa [after_of_ok h] at hkeeps

/-! ## Containment -/

/-- `path` is the root, or its components go on from those of the root with names other
than the dot and the double dot. -/
def Under (root path : Str) : Prop :=
  ∃ k l t, Path.Names posix (l ++ t) ∧ root = Path.render posix k l ∧
    path = Path.render posix k (l ++ t)

/-- What `safe_member_path` gives for an absolute root. -/
theorem safeMemberPath_under {root : Str} {arg cwd : Str} (cwd' name : Str)
    (hroot : Path.isabs posix (Path.abspath posix cwd arg) = true)
    (heq : root = Path.abspath posix cwd arg) :
    ∃ r, safeMemberPath cwd' root name = .ok r ∧ ∀ path, r = some path → Under root path := by
  obtain ⟨k, l, hk, hk', hl, hrender⟩ := Path.exists_render_abspath hroot
  rw [heq, hrender]
  by_cases hne : stripDotSlash name = [] ∨ stripDotSlash name = [posix.dot]
  · refine ⟨some (Path.render posix k l), by rw [safeMemberPath, if_pos hne], ?_⟩
    rintro path ⟨⟩
    exact ⟨k, l, [], by rwa [List.append_nil], rfl, by rw [List.append_nil]⟩
  · by_cases hrel : Path.isabs posix (stripDotSlash name) = true
    · exact ⟨none, by rw [safeMemberPath, if_neg hne, if_pos hrel],
        by rintro path ⟨⟩⟩
    · obtain ⟨hnames, hout⟩ := safeMemberPath_eq hk hk' hl cwd' hne hrel
      refine ⟨_, hout, fun path hpath => ?_⟩
      rw [Option.ite_none_right_eq_some, Option.some_inj] at hpath
      obtain ⟨⟨-, t, ht⟩, rfl⟩ := hpath
      exact ⟨k, l, t, ht ▸ hnames, rfl, by rw [ht]⟩

/-- **Everything stays under the root.**  Every system call is on a path that goes on from
the root, and every attribute set is one of the three of a member; so a file that no such
path leads to is untouched, and so is every other attribute. -/
theorem main_contained (host : Host ι) (cwd arg : Str) (members : List Member) (w : World ι)
    (hroot : Path.isabs posix (Path.abspath posix cwd arg) = true) :
    let w' := after (main host cwd members [arg]) w
    (∃ calls, w'.log = w.log ++ calls ∧ ∀ c ∈ calls,
      Under (Path.abspath posix cwd arg) c.1.path ∧
        ∀ path name value, c.1 = .setxattr path name value →
          ∃ m ∈ members, (name, value) ∈ metadata m) ∧
      (∀ i, (∀ path, Under (Path.abspath posix cwd arg) path → host.resolve path ≠ some i) →
        w'.file i = w.file i) ∧
      ∀ i name, name ∉ ["user.virtfs.uid", "user.virtfs.gid", "user.virtfs.mode"] →
        (w'.file i).xattrs name = (w.file i).xattrs name := by
  have hkeeps : Within host (SeedsAny cwd (Path.abspath posix cwd arg) members) w
      (after (main host cwd members [arg]) w) := by
    unfold main
    dsimp only
    split
    · exact keeps_seedAll cwd _ members {} w
    · exact refl_of _ w
  have hunder : ∀ c, SeedsAny cwd (Path.abspath posix cwd arg) members c →
      Under (Path.abspath posix cwd arg) c.path := by
    rintro c ⟨m, -, path, hpath, hc⟩
    obtain ⟨r, hr, hu⟩ := safeMemberPath_under cwd m.name hroot rfl
    rw [hc.path_eq]
    exact hu path (Except.ok.inj (hr.symm.trans hpath))
  refine ⟨?_, ?_, ?_⟩
  · obtain ⟨calls, hlog, hcalls⟩ := hkeeps.log
    refine ⟨calls, hlog, fun c hc => ⟨hunder _ (hcalls c hc), ?_⟩⟩
    intro path name value hset
    obtain ⟨m, hm, path', -, hseeds⟩ := hcalls c hc
    rw [hset] at hseeds
    exact ⟨m, hm, hseeds.2⟩
  · exact fun i hi => hkeeps.file i fun c hc => hi _ (hunder c hc)
  · intro i name hname
    refine hkeeps.xattr i name ?_
    rintro path value ⟨m, -, path', -, -, hmem⟩
    refine hname ?_
    simp only [metadata, List.mem_cons, List.not_mem_nil, or_false, Prod.mk.injEq] at hmem
    rcases hmem with ⟨rfl, -⟩ | ⟨rfl, -⟩ | ⟨rfl, -⟩ <;> decide

/-- A host with a directory and one file in it, read-only: no attribute can be set before
`chmod` was called. -/
def sampleHost (dir file : Str) : Host ℕ where
  resolve path := if path = file then some 1 else if path = dir then some 0 else none
  dropsSgid _ := false
  fails log c :=
    match c with
    | .setxattr _ _ _ => if log.any fun x => x.1 matches .chmod _ _ then none else some EACCES
    | _ => none
  isdir _ := true

def sampleWorld : World ℕ := ⟨fun _ => ⟨false, 0o440, fun _ => none⟩, []⟩

/-- A file owned by the user 1, with the mode `0440`. -/
def sampleMember (name : Str) : Member := ⟨name, .reg, 0o440, 1, 0⟩

-- the root is `/r`, the file `/r/a`
theorem main_contained_sample :
    (after (main (sampleHost [47, 114] [47, 114, 47, 97]) [47] [sampleMember [97]] [[47, 114]])
      sampleWorld).file 2 = sampleWorld.file 2 := by
  have h := main_contained (sampleHost [47, 114] [47, 114, 47, 97]) [47] [47, 114]
    [sampleMember [97]] sampleWorld (by decide)
  refine h.2.1 2 fun path _ => ?_
  unfold sampleHost
  dsimp only
  split
  · decide
  · split <;> decide

/-! ## Permission bits -/

/-- The bits of a file are `p`, and become `q` by calls of `chmod` that ask for `p` in the end. -/
def Remains (host : Host ι) (i : ι) (p q : BitVec 12) : Prop :=
  q = p ∨ (host.dropsSgid i = true ∧ q = p &&& ~~~S_ISGID)

/-- The permission bits of every file are as they were, or owner-write is still open where
the call that should have restored them has failed. -/
def Modes (host : Host ι) (w w' : World ι) : Prop :=
  ∃ calls, w'.log = w.log ++ calls ∧ ∀ i, ∃ q, Remains host i (w.file i).perms q ∧
    ((w'.file i).perms = q ∨ ((w'.file i).perms = q ||| S_IWUSR ∧ ∃ path perms e,
      host.resolve path = some i ∧ Remains host i (w.file i).perms perms ∧
        (Call.chmod path perms, some e) ∈ calls))

omit [DecidableEq ι] in
theorem Remains.refl (host : Host ι) (i : ι) (p : BitVec 12) : Remains host i p p := .inl rfl

omit [DecidableEq ι] in
theorem Remains.trans {i : ι} {p q r : BitVec 12} (h : Remains host i p q) (h' : Remains host i q r) :
    Remains host i p r := by
  rcases h' with rfl | ⟨hdrop, rfl⟩
  · exact h
  · refine .inr ⟨hdrop, ?_⟩
    rcases h with rfl | ⟨-, rfl⟩
    · rfl
    · rw [BitVec.and_assoc, BitVec.and_self]

omit [DecidableEq ι] in
/-- Owner-write and the set-group-id bit have nothing to do with each other. -/
theorem Remains.of_open {i : ι} {p r : BitVec 12} (h : Remains host i (p ||| S_IWUSR) r) :
    ∃ q, Remains host i p q ∧ r = q ||| S_IWUSR := by
  rcases h with rfl | ⟨hdrop, rfl⟩
  · exact ⟨p, .refl host i p, rfl⟩
  · refine ⟨p &&& ~~~S_ISGID, .inr ⟨hdrop, rfl⟩, ?_⟩
    have hbits : S_IWUSR &&& ~~~S_ISGID = S_IWUSR := by decide
    rw [BitVec.and_or_distrib_right, hbits]

instance : Std.Refl (Modes host) where
  refl w := ⟨[], by simp, fun i => ⟨_, .refl host i _, .inl rfl⟩⟩

instance : IsTrans (World ι) (Modes host) where
  trans w w' w'' := by
    rintro ⟨calls, hlog, h⟩ ⟨calls', hlog', h'⟩
    refine ⟨calls ++ calls', by rw [hlog', hlog, List.append_assoc], fun i => ?_⟩
    obtain ⟨q, hq, h⟩ := h i
    obtain ⟨r, hr, h'⟩ := h' i
    rcases h with h | ⟨h, path, perms, e, hi, hperms, hmem⟩
    · rw [h] at hr
      refine ⟨r, hq.trans hr, ?_⟩
      rcases h' with h' | ⟨h', path, perms, e, hi, hperms, hmem⟩
      · exact .inl h'
      · rw [h] at hperms
        exact .inr ⟨h', path, perms, e, hi, hq.trans hperms, List.mem_append_right _ hmem⟩
    · rw [h] at hr
      obtain ⟨r', hr', rfl⟩ := hr.of_open
      refine ⟨r', hq.trans hr', .inr ⟨?_, path, perms, e, hi, hperms, List.mem_append_left _ hmem⟩⟩
      rcases h' with h' | ⟨h', -⟩
      · exact h'
      · rw [h', BitVec.or_assoc, BitVec.or_self]

omit [DecidableEq ι] in
theorem Within.modes (h : Within host good w w') (hgood : ∀ path perms, ¬good (.chmod path perms)) :
    Modes host w w' := by
  obtain ⟨calls, hlog, -⟩ := h.log
  exact ⟨calls, hlog, fun i => ⟨_, .refl host i _, .inl (h.perms i hgood)⟩⟩

theorem modes_seed {path : Str} {m : Member} : Keeps (Modes host) (seed host path m) :=
  keeps_seed.mono fun _ _ h => h.modes fun _ _ => id

theorem modes_lstat {path : Str} : Keeps (Modes host) (host.call (.lstat path)) := by
  have hcall : Keeps (Within host (· = .lstat path)) (host.call (.lstat path)) := keeps_call rfl
  exact hcall.mono fun _ _ h => h.modes nofun

theorem chmod_cases {path : Str} {i : ι} (hi : host.resolve path = some i) (perms : BitVec 12)
    (w : World ι) :
    (∃ w', host.call (.chmod path perms) w = .ok (w.file i) w' ∧
      w'.log = w.log ++ [(.chmod path perms, none)] ∧
      Remains host i perms (w'.file i).perms ∧ ∀ j ≠ i, (w'.file j).perms = (w.file j).perms) ∨
    ∃ e, host.call (.chmod path perms) w =
      .error e { w with log := w.log ++ [(.chmod path perms, some e)] } := by
  rcases call_cases host (.chmod path perms) w with ⟨i', hi', heq⟩ | herr
  · obtain rfl : i' = i := Option.some.inj (hi'.symm.trans hi)
    refine .inl ⟨_, heq, rfl, ?_, fun j hj => congrArg Inode.perms (Function.update_of_ne hj _ _)⟩
    dsimp only
    rw [Function.update_self]
    unfold Call.effect
    cases hdrop : host.dropsSgid i' with
    | false => exact .inl rfl
    | true => exact .inr ⟨hdrop, rfl⟩
  · exact .inr herr

/-- Owner-write is open for `seed`, and no longer. -/
theorem modes_open {path : Str} {m : Member} {i : ι} (hi : host.resolve path = some i)
    (w : World ι) :
    Modes host w (after (do
      let _ ← host.call (.chmod path ((w.file i).perms ||| S_IWUSR))
      tryFinally (seed host path m) (host.call (.chmod path (w.file i).perms))) w) := by
  rcases chmod_cases hi ((w.file i).perms ||| S_IWUSR) w with ⟨w1, h1, hlog1, hkept1, hother1⟩ | ⟨e, h1⟩
  · rw [after_bind_of_ok h1, after_tryFinally]
    have hseed : Within host (Writes path m) w1 (after (seed host path m) w1) := keeps_seed w1
    generalize after (seed host path m) w1 = w2 at hseed
    obtain ⟨calls, hlog2, -⟩ := hseed.log
    have hperms2 := fun j => hseed.perms j fun _ _ => id
    rcases chmod_cases hi (w.file i).perms w2 with ⟨w3, h3, hlog3, hkept3, hother3⟩ | ⟨e, h3⟩
    · rw [after_of_ok h3]
      refine ⟨_, by rw [hlog3, hlog2, hlog1, List.append_assoc, List.append_assoc], fun j => ?_⟩
      by_cases hj : j = i
      · subst hj
        exact ⟨_, hkept3, .inl rfl⟩
      · exact ⟨_, .refl host j _, .inl (by rw [hother3 j hj, hperms2, hother1 j hj])⟩
    · rw [after_of_error h3]
      refine ⟨_, by rw [hlog2, hlog1, List.append_assoc, List.append_assoc], fun j => ?_⟩
      by_cases hj : j = i
      · subst hj
        obtain ⟨q, hq, hopen⟩ := hkept1.of_open
        refine ⟨q, hq, .inr ⟨?_, path, _, e, hi, .refl host j _, by simp⟩⟩
        dsimp only
        rw [hperms2, hopen]
      · refine ⟨_, .refl host j _, .inl ?_⟩
        dsimp only
        rw [hperms2, hother1 j hj]
  · rw [after_bind_of_error h1]
    exact ⟨_, rfl, fun j => ⟨_, .refl host j _, .inl rfl⟩⟩

theorem modes_seedReadOnly {path : Str} {m : Member} (e : Errno) :
    Keeps (Modes host) (seedReadOnly host path m e) := by
  intro w
  rcases call_cases host (.lstat path) w with ⟨i, hi, heq⟩ | ⟨e', heq⟩
  · have hfile : Function.update w.file i
        (Call.effect (host.dropsSgid i) (.lstat path) (w.file i)) = w.file :=
      Function.update_eq_self i w.file
    rw [hfile] at heq
    have hlstat : Modes host w { w with log := w.log ++ [(.lstat path, none)] } :=
      ⟨_, rfl, fun i => ⟨_, .refl host i _, .inl rfl⟩⟩
    unfold seedReadOnly
    rw [after_bind_of_ok heq]
    refine trans_of (Modes host) hlstat ?_
    split
    · exact refl_of (Modes host) _
    · exact modes_open hi { w with log := w.log ++ [(.lstat path, none)] }
  · unfold seedReadOnly
    rw [after_bind_of_error heq]
    exact ⟨_, rfl, fun i => ⟨_, .refl host i _, .inl rfl⟩⟩

theorem modes_trySeed {path : Str} {m : Member} : Keeps (Modes host) (trySeed host path m) := by
  have hmember : Keeps (Modes host) (seedMember host path m) := by
    refine modes_seed.tryCatch fun e => ?_
    split
    · exact modes_seedReadOnly e
    · exact Keeps.throw e
  exact (hmember.bind fun _ => Keeps.pure none).tryCatch fun e => Keeps.pure (some e)

theorem modes_seedAll (cwd root : Str) (members : List Member) (c : Counts) :
    Keeps (Modes host) (seedAll host cwd root members c) := by
  induction members generalizing c with
  | nil => exact Keeps.pure _
  | cons m members ih =>
    unfold seedAll
    split
    · exact Keeps.pure _
    · exact ih _
    · rename_i path hpath
      have hexists : Keeps (Modes host) (lexists host path) :=
        (modes_lstat.bind fun _ => Keeps.pure true).tryCatch fun _ => Keeps.pure false
      refine hexists.bind fun there => ?_
      split
      · refine modes_trySeed.bind fun r => ?_
        split
        · exact ih _
        · split
          · exact ih _
          · exact Keeps.pure _
      · exact ih _

/-- **No permission bit is added for good.**  After any run, and whatever fails, the permission
bits of every file are as before, but for the set-group-id bit where `chmod` clears it; or
they are those with owner-write, and then a call that should have put them back has failed. -/
theorem modes_restored (host : Host ι) (cwd : Str) (members : List Member) (args : List Str)
    (w : World ι) :
    ∃ calls, (after (main host cwd members args) w).log = w.log ++ calls ∧
      ∀ i, ∃ q, Remains host i (w.file i).perms q ∧
        (((after (main host cwd members args) w).file i).perms = q ∨
          (((after (main host cwd members args) w).file i).perms = q ||| S_IWUSR ∧
            ∃ path perms e, host.resolve path = some i ∧ Remains host i (w.file i).perms perms ∧
              (Call.chmod path perms, some e) ∈ calls)) := by
  have hmain : Modes host w (after (main host cwd members args) w) := by
    unfold main
    split
    · dsimp only
      split
      · exact modes_seedAll cwd _ members {} w
      · exact refl_of (Modes host) w
    · exact refl_of (Modes host) w
  exact hmain

/-! ## Metadata -/

/-- A file has the attributes of a member. -/
def Written (f : Inode) (m : Member) : Prop := ∀ x ∈ metadata m, f.xattrs x.1 = some x.2

section Written

variable {path : Str} {m : Member}

theorem setU32Xattr_ok {name : String} {value : ℤ} {u : Unit}
    (h : setU32Xattr host path name value w = .ok u w') :
    ∃ i, host.resolve path = some i ∧ (w'.file i).xattrs =
      Function.update (w.file i).xattrs (xattrPrefix ++ name) (some (packU32 value)) := by
  have hc := call_cases host (.setxattr path (xattrPrefix ++ name) (packU32 value)) w
  rcases hc with ⟨i, hi, heq⟩ | ⟨e, heq⟩
  · refine ⟨i, hi, ?_⟩
    rw [setU32Xattr, bind_apply, heq] at h
    cases h
    dsimp only
    rw [Function.update_self]
    rfl
  · rw [setU32Xattr, bind_apply, heq] at h
    cases h

theorem seed_ok {u : Unit} (h : seed host path m w = .ok u w') :
    ∃ i, host.resolve path = some i ∧ Written (w'.file i) m := by
  obtain ⟨_, w1, h1, h⟩ := ok_of_bind h
  obtain ⟨_, w2, h2, h3⟩ := ok_of_bind h
  obtain ⟨i, hi, hx1⟩ := setU32Xattr_ok h1
  obtain ⟨i2, hi2, hx2⟩ := setU32Xattr_ok h2
  obtain ⟨i3, hi3, hx3⟩ := setU32Xattr_ok h3
  obtain rfl : i = i2 := Option.some.inj (hi.symm.trans hi2)
  obtain rfl : i = i3 := Option.some.inj (hi.symm.trans hi3)
  refine ⟨i, hi, ?_⟩
  intro x hx
  rw [hx3, hx2, hx1]
  simp only [metadata, List.mem_cons, List.not_mem_nil, or_false] at hx
  rcases hx with rfl | rfl | rfl
  · rw [Function.update_of_ne (show xattrPrefix ++ "uid" ≠ xattrPrefix ++ "mode" by decide),
      Function.update_of_ne (show xattrPrefix ++ "uid" ≠ xattrPrefix ++ "gid" by decide),
      Function.update_self]
  · rw [Function.update_of_ne (show xattrPrefix ++ "gid" ≠ xattrPrefix ++ "mode" by decide),
      Function.update_self]
  · rw [Function.update_self]

theorem seedReadOnly_ok {e : Errno} {u : Unit} (h : seedReadOnly host path m e w = .ok u w') :
    ∃ i, host.resolve path = some i ∧ Written (w'.file i) m := by
  obtain ⟨st, w1, -, h⟩ := ok_of_bind h
  split at h
  · cases h
  · obtain ⟨_, w2, -, h⟩ := ok_of_bind h
    rw [tryFinally_apply] at h
    cases hs : seed host path m w2 with
    | error e' w3 =>
      rw [hs] at h
      dsimp only at h
      cases hr : host.call (.chmod path st.perms) w3 <;> rw [hr] at h <;> cases h
    | ok u w3 =>
      rw [hs] at h
      dsimp only at h
      obtain ⟨i, hi, hw⟩ := seed_ok hs
      refine ⟨i, hi, ?_⟩
      have hcall : Keeps (Within host (· = .chmod path st.perms))
          (host.call (.chmod path st.perms)) := keeps_call rfl
      have hkeeps := hcall w3
      cases hr : host.call (.chmod path st.perms) w3 with
      | error e' w4 =>
        rw [hr] at h
        cases h
      | ok f w4 =>
        rw [hr] at h
        cases h
        rw [after_of_ok hr] at hkeeps
        intro x hx
        rw [hkeeps.xattr i x.1 nofun]
        exact hw x hx

/-- Where `seed_member` raises nothing, the attributes are there. -/
theorem trySeed_none (h : trySeed host path m w = .ok none w') :
    ∃ i, host.resolve path = some i ∧ Written (w'.file i) m := by
  rw [trySeed, tryCatch_apply] at h
  cases hm : (do seedMember host path m; pure none : Os ι (Option Errno)) w with
  | error e w1 =>
    rw [hm] at h
    cases h
  | ok r w1 =>
    rw [hm] at h
    cases h
    obtain ⟨u, w2, h2, h3⟩ := ok_of_bind hm
    cases h3
    rw [seedMember, tryCatch_apply] at h2
    cases hs : seed host path m w with
    | ok u' w3 =>
      rw [hs] at h2
      cases h2
      exact seed_ok hs
    | error e w3 =>
      rw [hs] at h2
      dsimp only at h2
      split at h2
      · exact seedReadOnly_ok h2
      · cases h2

omit [DecidableEq ι] in
/-- A call that failed stays in the log. -/
theorem Within.failed (h : Within host good w w') {c : Call} {e : Errno} (hmem : (c, some e) ∈ w.log) :
    (c, some e) ∈ w'.log := by
  obtain ⟨calls, hlog, -⟩ := h.log
  rw [hlog]
  exact List.mem_append_left _ hmem

/-- An error is that of a call. -/
def Raises (good : Call → Prop) {α : Type} (p : Os ι α) : Prop :=
  ∀ w e w', p w = .error e w' → ∃ c, good c ∧ (c, some e) ∈ w'.log

theorem raises_call {c : Call} (hc : good c) : Raises good (host.call c) := by
  intro w e w' h
  rcases call_cases host c w with ⟨i, -, heq⟩ | ⟨e', heq⟩
  · rw [heq] at h
    cases h
  · rw [heq] at h
    cases h
    exact ⟨c, hc, by simp⟩

omit [DecidableEq ι] in
theorem Raises.bind {α β : Type} {p : Os ι α} {f : α → Os ι β} (hp : Raises good p)
    (hf : ∀ a, Raises good (f a)) : Raises good (p >>= f) := by
  intro w e w' h
  rw [bind_apply] at h
  cases hpw : p w with
  | ok a w1 =>
    rw [hpw] at h
    exact hf a w1 e w' h
  | error e1 w1 =>
    rw [hpw] at h
    cases h
    exact hp w e w' hpw

omit [DecidableEq ι] in
theorem raises_pure {α : Type} (a : α) : Raises good (pure a : Os ι α) := nofun

theorem raises_seed : Raises (Seeds path m) (seed host path m) := by
  have hset : ∀ {name value}, (xattrPrefix ++ name, packU32 value) ∈ metadata m →
      Raises (Seeds path m) (setU32Xattr host path name value) := by
    intro name value hmem
    have hcall : Raises (Seeds path m) (host.call (.setxattr path (xattrPrefix ++ name)
        (packU32 value))) := raises_call ⟨rfl, hmem⟩
    exact hcall.bind fun _ => raises_pure ()
  refine (hset (by simp [metadata])).bind fun _ => ?_
  exact (hset (by simp [metadata])).bind fun _ => hset (by simp [metadata])

/-- The error that `seed_member` handles is one it raises again, or a call of its own fails. -/
theorem seedReadOnly_error {e e' : Errno} (h : seedReadOnly host path m e w = .error e' w')
    (he : ∃ c, Seeds path m c ∧ (c, some e) ∈ w.log) :
    ∃ c, Seeds path m c ∧ (c, some e') ∈ w'.log := by
  have hlstat : Keeps (Within host (Seeds path m)) (host.call (.lstat path)) := keeps_call rfl
  have hraises : Raises (Seeds path m) (host.call (.lstat path)) := raises_call rfl
  have hchmod : ∀ perms, Raises (Seeds path m) (host.call (.chmod path perms)) := by
    intro perms
    exact raises_call rfl
  rw [seedReadOnly, bind_apply] at h
  have hw := hlstat w
  cases hst : host.call (.lstat path) w with
  | error e1 w1 =>
    rw [hst] at h
    cases h
    exact hraises w e' w' hst
  | ok st w1 =>
    rw [after_of_ok hst] at hw
    rw [hst] at h
    dsimp only at h
    split at h
    · cases h
      obtain ⟨c, hc, hmem⟩ := he
      exact ⟨c, hc, hw.failed hmem⟩
    · refine Raises.bind (hchmod _) (fun _ => ?_) w1 e' w' h
      intro w2 e2 w3 h2
      rw [tryFinally_apply] at h2
      cases hs : seed host path m w2 with
      | ok u w4 =>
        rw [hs] at h2
        dsimp only at h2
        cases hr : host.call (.chmod path st.perms) w4 with
        | ok f w5 =>
          rw [hr] at h2
          cases h2
        | error e3 w5 =>
          rw [hr] at h2
          cases h2
          exact hchmod _ w4 e2 w3 hr
      | error e3 w4 =>
        rw [hs] at h2
        dsimp only at h2
        have hkeeps : Keeps (Within host (Seeds path m)) (host.call (.chmod path st.perms)) :=
          keeps_call rfl
        have hw4 := hkeeps w4
        cases hr : host.call (.chmod path st.perms) w4 with
        | ok f w5 =>
          rw [hr] at h2
          cases h2
          rw [after_of_ok hr] at hw4
          obtain ⟨c, hc, hmem⟩ := raises_seed w2 e2 w4 hs
          exact ⟨c, hc, hw4.failed hmem⟩
        | error e4 w5 =>
          rw [hr] at h2
          cases h2
          exact hchmod _ w4 e2 w3 hr

/-- An error that `main` sees is that of a call for the member. -/
theorem trySeed_some {e : Errno} (h : trySeed host path m w = .ok (some e) w') :
    ∃ c, Seeds path m c ∧ (c, some e) ∈ w'.log := by
  have hmember : Raises (Seeds path m) (seedMember host path m) := by
    intro w e w' h
    rw [seedMember, tryCatch_apply] at h
    cases hs : seed host path m w with
    | ok u w1 =>
      rw [hs] at h
      cases h
    | error e1 w1 =>
      rw [hs] at h
      dsimp only at h
      split at h
      · exact seedReadOnly_error h (raises_seed w e1 w1 hs)
      · cases h
        exact raises_seed w e w' hs
  rw [trySeed, tryCatch_apply] at h
  cases hm : (do seedMember host path m; pure none : Os ι (Option Errno)) w with
  | ok r w1 =>
    rw [hm] at h
    cases h
    obtain ⟨u, w2, -, h3⟩ := ok_of_bind hm
    cases h3
  | error e1 w1 =>
    rw [hm] at h
    cases h
    exact hmember.bind (fun _ => raises_pure none) w e w' hm

theorem lexists_false (h : lexists host path w = .ok false w') :
    ∃ e, (.lstat path, some e) ∈ w'.log := by
  rw [lexists, tryCatch_apply, bind_apply] at h
  rcases call_cases host (.lstat path) w with ⟨i, hi, heq⟩ | ⟨e, heq⟩
  · rw [heq] at h
    cases h
  · rw [heq] at h
    cases h
    exact ⟨e, by simp⟩

end Written

/-! ## A run that reports success -/

/-- What became of a member. -/
inductive Out
  | seeded
  | missing
  | refused
  | symlink
  deriving DecidableEq

/-- What is known of a member with this outcome, the members `later` after it: its file has its
attributes, unless a later member leads to the same file; or `lstat` has failed on its path; or
`safe_member_path` has refused its name; or it is a symbolic link, and a call for it has failed
with `EPERM` or `ENOTSUP`. -/
def Out.Holds (host : Host ι) (cwd root : Str) (w' : World ι) (m : Member) (later : List Member) :
    Out → Prop
  | .seeded => ∃ path i, safeMemberPath cwd root m.name = .ok (some path) ∧
      host.resolve path = some i ∧
      ((∀ m' ∈ later, ∀ path', safeMemberPath cwd root m'.name = .ok (some path') →
        host.resolve path' ≠ some i) → Written (w'.file i) m)
  | .missing => ∃ path e, safeMemberPath cwd root m.name = .ok (some path) ∧
      (.lstat path, some e) ∈ w'.log
  | .refused => safeMemberPath cwd root m.name = .ok none
  | .symlink => m.typeflag = .sym ∧ ∃ path c e, safeMemberPath cwd root m.name = .ok (some path) ∧
      Seeds path m c ∧ (c, some e) ∈ w'.log ∧ (e = EPERM ∨ e = ENOTSUP)

/-- Every member has an outcome. -/
def Accounted (host : Host ι) (cwd root : Str) (w' : World ι) : List Member → List Out → Prop
  | [], [] => True
  | m :: members, o :: outs =>
    o.Holds host cwd root w' m members ∧ Accounted host cwd root w' members outs
  | _, _ => False

/-- An error that is caught counts a symbolic link, or keeps the report from success. -/
theorem onError_some {path : Str} {m : Member} {e : Errno} {c c' : Counts}
    (h : onError path m e c = some c') :
    (m.typeflag = .sym ∧ (e = EPERM ∨ e = ENOTSUP) ∧
      c' = { c with skippedSymlink := c.skippedSymlink + 1 }) ∨ c'.failures ≠ [] := by
  unfold onError at h
  split at h
  · rename_i hsym
    cases h
    obtain ⟨htype, h | h | h⟩ := hsym
    · exact .inl ⟨htype, .inl h, rfl⟩
    · exact .inl ⟨htype, .inr h, rfl⟩
    · exact .inl ⟨htype, .inr h, rfl⟩
  · split at h
    · cases h
    · split at h
      · cases h
        exact .inr (List.append_ne_nil_of_right_ne_nil _ (List.cons_ne_nil _ _))
      · rename_i hlen
        cases h
        refine .inr fun hnil => hlen ?_
        rw [hnil]
        decide

theorem seedAll_seeded {cwd root : Str} {members : List Member} {c c' : Counts}
    (h : seedAll host cwd root members c w = .ok (.seeded c') w') :
    c.failures = [] ∧ ∃ outs, Accounted host cwd root w' members outs ∧
      c'.seeded = c.seeded + outs.count .seeded ∧
      c'.skippedMissing = c.skippedMissing + outs.count .missing ∧
      c'.skippedUnsafe = c.skippedUnsafe + outs.count .refused ∧
      c'.skippedSymlink = c.skippedSymlink + outs.count .symlink := by
  induction members generalizing c w with
  | nil =>
    unfold seedAll at h
    split at h
    · rename_i hc
      cases h
      exact ⟨hc, [], trivial, rfl, rfl, rfl, rfl⟩
    · cases h
  | cons m members ih =>
    unfold seedAll at h
    cases hpath : safeMemberPath cwd root m.name with
    | error message =>
      rw [hpath] at h
      cases h
    | ok r =>
      rw [hpath] at h
      cases r with
      | none =>
        obtain ⟨hf, outs, hall, h1, h2, h3, h4⟩ := ih h
        refine ⟨hf, .refused :: outs, ⟨hpath, hall⟩, h1, h2, ?_, h4⟩
        rw [h3, List.count_cons_self]
        dsimp only
        omega
      | some path =>
        obtain ⟨there, w1, h1, h⟩ := ok_of_bind h
        cases there with
        | false =>
          rw [if_neg Bool.false_ne_true] at h
          obtain ⟨hf, outs, hall, h2, h3, h4, h5⟩ := ih h
          obtain ⟨e, he⟩ := lexists_false h1
          refine ⟨hf, .missing :: outs, ⟨⟨path, e, hpath, (seedAll_within h).failed he⟩, hall⟩, h2, ?_,
            h4, h5⟩
          rw [h3, List.count_cons_self]
          dsimp only
          omega
        | true =>
          rw [if_pos rfl] at h
          obtain ⟨r, w2, h2, h⟩ := ok_of_bind h
          cases r with
          | none =>
            obtain ⟨hf, outs, hall, h3, h4, h5, h6⟩ := ih h
            obtain ⟨i, hi, hw⟩ := trySeed_none h2
            refine ⟨hf, .seeded :: outs, ⟨⟨path, i, hpath, hi, fun hlater => ?_⟩, hall⟩, ?_,
              h4, h5, h6⟩
            · -- no later member touches the file
              rw [(seedAll_within h).file i ?_]
              · exact hw
              · rintro c ⟨m', hm', path', hpath', hc⟩
                rw [hc.path_eq]
                exact hlater m' hm' path' hpath'
            · rw [h3, List.count_cons_self]
              dsimp only
              omega
          | some e =>
            dsimp only at h
            cases hc : onError path m e c with
            | none =>
              rw [hc] at h
              cases h
            | some c1 =>
              rw [hc] at h
              obtain ⟨hf, outs, hall, h3, h4, h5, h6⟩ := ih h
              rcases onError_some hc with ⟨hsym, he, rfl⟩ | hne
              · obtain ⟨c2, hc2, hmem⟩ := trySeed_some h2
                refine ⟨hf, .symlink :: outs, ⟨⟨hsym, path, c2, e, hpath, hc2,
                  (seedAll_within h).failed hmem, he⟩, hall⟩, h3, h4, h5, ?_⟩
                rw [h6, List.count_cons_self]
                dsimp only
                omega
              · exact absurd hf hne

/-- **What a success means.**  Where the script reports success, no member has failed, and
each is one of four kinds, as many as it reports: its file has its owner, group and mode,
unless a later member leads to the same file; or `lstat` has failed on its path; or
`safe_member_path` has refused its name; or it is a symbolic link, and a call for it has
failed with `EPERM` or `ENOTSUP`. -/
theorem main_seeded {cwd arg : Str} {members : List Member} {c : Counts}
    (h : main host cwd members [arg] w = .ok (.seeded c) w') :
    ∃ outs, Accounted host cwd (Path.abspath posix cwd arg) w' members outs ∧
      c.seeded = outs.count .seeded ∧ c.skippedMissing = outs.count .missing ∧
      c.skippedUnsafe = outs.count .refused ∧ c.skippedSymlink = outs.count .symlink := by
  unfold main at h
  dsimp only at h
  split at h
  · obtain ⟨-, outs, hall, h1, h2, h3, h4⟩ := seedAll_seeded h
    refine ⟨outs, hall, ?_, ?_, ?_, ?_⟩
    · rw [h1, Nat.zero_add]
    · rw [h2, Nat.zero_add]
    · rw [h3, Nat.zero_add]
    · rw [h4, Nat.zero_add]
  · cases h

theorem main_seeded_sample :
    let host := sampleHost [47, 114] [47, 114, 47, 97]
    ∃ w' outs, main host [47] [sampleMember [97]] [[47, 114]] sampleWorld =
      .ok (.seeded { seeded := 1 }) w' ∧
      Accounted host [47] [47, 114] w' [sampleMember [97]] outs ∧ 1 = outs.count .seeded := by
  intro host
  obtain ⟨w', h⟩ : ∃ w', main (sampleHost [47, 114] [47, 114, 47, 97]) [47] [sampleMember [97]]
      [[47, 114]] sampleWorld = .ok (.seeded { seeded := 1 }) w' := ⟨_, rfl⟩
  obtain ⟨outs, hall, hcount, -⟩ := main_seeded h
  exact ⟨_, outs, h, hall, hcount⟩

end Seed
