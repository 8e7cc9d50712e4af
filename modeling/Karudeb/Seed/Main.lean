import Karudeb.Lib.Effect
import Karudeb.Seed.Xattrs
import Mathlib

/-!
# Seeding a root file system

The rest of the script that writes the ownership of a root file system to extended
attributes, over any host: which path leads to which file, and which system call fails
when, are parameters.

* `memberMode`, `packU32` : what is written.
* `Host.call` : a system call, which fails if the host says so and is recorded.
* `seedMember` : three attributes of one file, with owner-write opened if need be.
* `main` : the loop over the archive, its counters and how it ends.
-/

namespace Seed

/-! ## Archive members -/

/-- The kinds of archive members that the script tells apart. -/
inductive Typeflag
  | dir
  | reg
  | lnk
  | sym
  | chr
  | blk
  | fifo
  | other
  deriving DecidableEq, Repr

/-- `tarfile.TarInfo`. -/
structure Member where
  name : Str
  typeflag : Typeflag
  mode : ℤ
  uid : ℤ
  gid : ℤ

/-- `member_mode`. -/
def memberMode (m : Member) : ℕ :=
  let perms := (m.mode % 0o10000).toNat
  let kind :=
    match m.typeflag with
    | .dir => 0o040000
    | .reg | .lnk => 0o100000
    | .sym => 0o120000
    | .chr => 0o020000
    | .blk => 0o060000
    | .fifo => 0o010000
    | .other => 0o100000
  kind ||| perms

/-- `struct.pack("<I", value & 0xFFFFFFFF)`. -/
def packU32 (value : ℤ) : List ℕ :=
  (List.range 4).map fun i => (value % 2 ^ 32).toNat / 256 ^ i % 256

/-! ## The host -/

abbrev Errno := ℕ

def EPERM : Errno := 1
def ENOENT : Errno := 2
def EACCES : Errno := 13
def ENOTSUP : Errno := 95
def EOPNOTSUPP : Errno := 95

/-- What Python raises `PermissionError` for. -/
def permissionError (e : Errno) : Bool := decide (e = EPERM ∨ e = EACCES)

/-- A file: is it a symbolic link, its permission bits, and its extended attributes. -/
structure Inode where
  symlink : Bool
  perms : BitVec 12
  xattrs : String → Option (List ℕ)

/-- `stat.S_IWUSR`. -/
def S_IWUSR : BitVec 12 := 0o200

/-- `stat.S_ISGID`. -/
def S_ISGID : BitVec 12 := 0o2000

/-- A system call, on the path itself and not on where a symbolic link leads. -/
inductive Call
  | lstat (path : Str)
  | setxattr (path : Str) (name : String) (value : List ℕ)
  | chmod (path : Str) (perms : BitVec 12)

def Call.path : Call → Str
  | .lstat path | .setxattr path _ _ | .chmod path _ => path

/-- What a call does to a file.  `chmod` clears `S_ISGID`, without an error, for a caller that
is neither privileged nor in the group of the file. -/
def Call.effect (dropsSgid : Bool) : Call → Inode → Inode
  | .lstat _, f => f
  | .setxattr _ name value, f => { f with xattrs := Function.update f.xattrs name (some value) }
  | .chmod _ perms, f => { f with perms := if dropsSgid then perms &&& ~~~S_ISGID else perms }

/-- The files, and the calls so far with how they failed. -/
structure World (ι : Type) where
  file : ι → Inode
  log : List (Call × Option Errno)

/-- The file a path leads to, for which files `chmod` clears `S_ISGID`, and the error a call
fails with after those before it. -/
structure Host (ι : Type) where
  resolve : Str → Option ι
  dropsSgid : ι → Bool
  fails : List (Call × Option Errno) → Call → Option Errno
  isdir : Str → Bool

/-- A program that makes system calls, and may raise an `OSError`. -/
abbrev Os (ι α : Type) := EStateM Errno (World ι) α

variable {ι : Type} [DecidableEq ι]

/-- A system call: the file as it was before. -/
def Host.call (host : Host ι) (c : Call) : Os ι Inode := fun w =>
  match host.fails w.log c with
  | some e => .error e { w with log := w.log ++ [(c, some e)] }
  | none =>
    match host.resolve c.path with
    | none => .error ENOENT { w with log := w.log ++ [(c, some ENOENT)] }
    | some i => .ok (w.file i)
        { file := Function.update w.file i (c.effect (host.dropsSgid i) (w.file i))
          log := w.log ++ [(c, none)] }

/-- `os.path.lexists`. -/
def lexists (host : Host ι) (path : Str) : Os ι Bool :=
  tryCatch (do let _ ← host.call (.lstat path); pure true) fun _ => pure false

def xattrPrefix : String := "user.virtfs."

/-- `set_u32_xattr`. -/
def setU32Xattr (host : Host ι) (path : Str) (name : String) (value : ℤ) : Os ι Unit := do
  let _ ← host.call (.setxattr path (xattrPrefix ++ name) (packU32 value))

/-- The inner `seed` of `seed_member`. -/
def seed (host : Host ι) (path : Str) (m : Member) : Os ι Unit := do
  setU32Xattr host path "uid" m.uid
  setU32Xattr host path "gid" m.gid
  setU32Xattr host path "mode" (memberMode m)

/-- `seed_member`, from the `PermissionError` on. -/
def seedReadOnly (host : Host ι) (path : Str) (m : Member) (e : Errno) : Os ι Unit := do
  let st ← host.call (.lstat path)
  if st.symlink ∨ st.perms &&& S_IWUSR ≠ 0 then throw e
  else do
    let _ ← host.call (.chmod path (st.perms ||| S_IWUSR))
    tryFinally (seed host path m) (host.call (.chmod path st.perms))

/-- `seed_member`. -/
def seedMember (host : Host ι) (path : Str) (m : Member) : Os ι Unit :=
  tryCatch (seed host path m) fun e =>
    if permissionError e then seedReadOnly host path m e else throw e

/-! ## The loop -/

/-- The counters of `main`. -/
structure Counts where
  seeded : ℕ := 0
  skippedMissing : ℕ := 0
  skippedUnsafe : ℕ := 0
  skippedSymlink : ℕ := 0
  failures : List (Str × Errno) := []

/-- How `main` ends: what it prints, or the `ValueError` it does not catch. -/
inductive Report
  | usage
  | notDirectory (root : Str)
  | noXattrs
  | raised (message : String)
  | failed (failures : List (Str × Errno))
  | seeded (counts : Counts)

/-- The exit code of the script. -/
def Report.code : Report → ℕ
  | .seeded _ => 0
  | _ => 1

/-- What an `OSError` of `seed_member` leads to: the next counters, or the end. -/
def onError (path : Str) (m : Member) (e : Errno) (c : Counts) : Option Counts :=
  if m.typeflag = .sym ∧ (e = EPERM ∨ e = ENOTSUP ∨ e = EOPNOTSUPP) then
    some { c with skippedSymlink := c.skippedSymlink + 1 }
  else if e = ENOTSUP ∨ e = EOPNOTSUPP then none
  else if c.failures.length < 5 then some { c with failures := c.failures ++ [(path, e)] }
  else some c

/-- `try: seed_member(path, member)`, with the error that it catches. -/
def trySeed (host : Host ι) (path : Str) (m : Member) : Os ι (Option Errno) :=
  tryCatch (do seedMember host path m; pure none) fun e => pure (some e)

/-- The loop of `main`, over the members left, and what comes after it. -/
def seedAll (host : Host ι) (cwd root : Str) : List Member → Counts → Os ι Report
  | [], c => pure (if c.failures = [] then .seeded c else .failed c.failures)
  | m :: members, c =>
    match safeMemberPath cwd root m.name with
    | .error message => pure (.raised message)
    | .ok none => seedAll host cwd root members { c with skippedUnsafe := c.skippedUnsafe + 1 }
    | .ok (some path) => do
      if ← lexists host path then
        match ← trySeed host path m with
        | none => seedAll host cwd root members { c with seeded := c.seeded + 1 }
        | some e =>
          match onError path m e c with
          | some c => seedAll host cwd root members c
          | none => pure .noXattrs
      else seedAll host cwd root members { c with skippedMissing := c.skippedMissing + 1 }

/-- `main`, with the arguments without the name of the script. -/
def main (host : Host ι) (cwd : Str) (members : List Member) : List Str → Os ι Report
  | [arg] =>
    let root := Path.abspath posix cwd arg
    if host.isdir root then seedAll host cwd root members {} else pure (.notDirectory root)
  | _ => pure .usage

end Seed
