import EraseCure.FileEraser
import EraseCure.FileTrees

/-!
# Erasing a folder

A visit of a directory erases the regular files in it, visits the directories
in it one level deeper, and removes the directory when it is empty then. The
paths of its entries are written into an array of 1024 bytes. A visit is known by
the names through which it was reached, and so are the calls it makes.
-/

set_option autoImplicit false

namespace EraseCure.FolderEraser
open EraseCure.CText EraseCure.ErrorCodes EraseCure.FileEraser
open EraseCure.PathNames EraseCure.FileTrees

structure FolderEraseOptions where
  fileOpts : FileEraseOptions
  removeDirs : Bool
  followMount : Bool
  maxDepth : ℕ

def folderEraseOptionsInit : FolderEraseOptions where
  fileOpts := fileEraseOptionsInit
  removeDirs := true
  followMount := false
  maxDepth := 128

structure FolderEraseResult where
  resultCode : ErasecureError
  path : CString 256
  filesProcessed : ℕ
  filesSucceeded : ℕ
  filesFailed : ℕ
  dirsRemoved : ℕ
  symlinksSkipped : ℕ
  totalBytesWritten : ℕ
  errorMessage : CString 256

/-- What the calls return: whether `lstat` works on the folder, at the start of
a visit and on an entry, whether a directory can be opened and in which order it
is read, the calls of each file, and whether a directory may be removed. -/
structure FolderIo where
  lstatTop : Bool
  lstatDir : List Text → Bool
  lstatEntry : List Text → Bool
  opendir : List Text → Bool
  readdir : List Text → List Text → List Text
  reads : ∀ chain names, (readdir chain names).Perm names
  file : List Text → FileEraseIo
  rmdir : List Text → Bool

def FolderIo.calm : FolderIo where
  lstatTop := true
  lstatDir := fun _ => true
  lstatEntry := fun _ => true
  opendir := fun _ => true
  readdir := fun _ names => names
  reads := fun _ names => List.Perm.refl names
  file := fun _ => .calm
  rmdir := fun _ => true

/-- The calls with what the path named at that moment. -/
inductive FolderEvent where
  | opendir (path : Text)
  | fileErase (path : Text) (node : Option ℕ) (code : ErasecureError)
  | rmdir (path : Text) (node : Option ℕ)
  deriving DecidableEq

structure FolderState where
  tree : FileTree
  result : FolderEraseResult
  seen : List (ℕ × ℕ)
  events : List FolderEvent

structure FolderRun where
  tree : FileTree
  result : FolderEraseResult
  events : List FolderEvent

/-- The same guard as that of the file eraser, written a second time. -/
def isDangerousPath (path : Text) : Bool :=
  ["/dev/".toList, "/proc/".toList, "/sys/".toList].any (fun p => p.isPrefixOf path)

def maxSeenInodes : ℕ := 1024

def pathCap : ℕ := 1024

def entryPath (dirPath name : Text) : Text := (child dirPath name).take (pathCap-1)

namespace FolderState

def message (s : FolderState) (text : Text) : FolderState :=
  { s with result := { s.result with errorMessage := printed256 text } }

def record (s : FolderState) (n : ℕ) : FolderState :=
  if s.seen.length < maxSeenInodes then { s with seen := s.seen++[(s.tree.device n, n)] } else s

def opened (s : FolderState) (path : Text) : FolderState :=
  { s with events := s.events++[.opendir path] }

def skipLink (s : FolderState) : FolderState :=
  { s with result := { s.result with symlinksSkipped := s.result.symlinksSkipped+1 } }

def count (s : FolderState) (run : FileEraseRun) : FolderEraseResult :=
  if run.result.resultCode = .ok then
    { s.result with
      filesProcessed := s.result.filesProcessed+1
      filesSucceeded := s.result.filesSucceeded+1
      totalBytesWritten := (s.result.totalBytesWritten+run.result.bytesWritten) % 2^64 }
  else
    { s.result with
      filesProcessed := s.result.filesProcessed+1
      filesFailed := s.result.filesFailed+1 }

def erased (s : FolderState) (path : Text) (run : FileEraseRun) : FolderState where
  tree :=
    let tree := { s.tree with object := run.fs.object }
    if run.result.fileRemoved then tree.unlink path else tree
  result := s.count run
  seen := s.seen
  events := s.events++[.fileErase path (s.tree.lstat path) run.result.resultCode]

def leave (s : FolderState) (removeDirs allowed : Bool) (path : Text) : FolderState :=
  if removeDirs then
    let s := { s with events := s.events++[.rmdir path (s.tree.lstat path)] }
    match (if allowed then s.tree.rmdir path else none) with
    | none => s
    | some tree =>
      { s with tree := tree, result := { s.result with dirsRemoved := s.result.dirsRemoved+1 } }
  else s

end FolderState

/-- What `readdir` lists. -/
def listing (t : FileTree) (n : ℕ) : List Text :=
  ".".toList::"..".toList::(t.directory n).names

section Visits
variable (fuel : ℕ) (io : FolderIo) (opts : FolderEraseOptions) (initialDev : ℕ)

def eraseEntry (visit : List Text → Text → FolderState → Option FolderState)
    (chain : List Text) (dirPath : Text) (s : FolderState) (name : Text) : Option FolderState :=
  if name = ".".toList ∨ name = "..".toList then some s
  else
    let path := entryPath dirPath name
    match (if io.lstatEntry (chain++[name]) then s.tree.lstat path else none) with
    | none => some s
    | some n =>
      match s.tree.kind n with
      | .symlink => some s.skipLink
      | .regular =>
        (fileErase fuel s.tree.files (io.file (chain++[name])) path opts.fileOpts).map
          (s.erased path)
      | .directory => visit (chain++[name]) path s
      | .special => some s

/-- `folder_erase_recursive` with the number of levels that the depth limit
leaves. The loop does not look at what a deeper visit returns. -/
def folderEraseRecursive : ℕ → List Text → Text → FolderState →
    Option (FolderState × ErasecureError)
  | 0, _, _, s => some (s.message "Max depth exceeded".toList, .generic)
  | levels+1, chain, dirPath, s =>
    match (if io.lstatDir chain then s.tree.lstat dirPath else none) with
    | none => some (s, .generic)
    | some n =>
      if s.tree.kind n ≠ .directory then some (s, .generic)
      else if opts.followMount = false ∧ s.tree.device n ≠ initialDev then some (s, .ok)
      else if (s.tree.device n, n) ∈ s.seen then
        some (s.message "Cycle detected".toList, .cycleDetected)
      else if io.opendir chain = false then some (s.record n, .generic)
      else
        ((io.readdir chain (listing s.tree n)).foldlM
          (eraseEntry fuel io opts
            (fun chain path s => (folderEraseRecursive levels chain path s).map Prod.fst)
            chain dirPath)
          ((s.record n).opened dirPath)).map
          (fun s => (s.leave opts.removeDirs (io.rmdir chain) dirPath, .ok))

end Visits

def folderErase (fuel : ℕ) (tree : FileTree) (io : FolderIo) (dirPath : Text)
    (opts : FolderEraseOptions) : Option FolderRun :=
  let result : FolderEraseResult := ⟨.ok, printed256 dirPath, 0, 0, 0, 0, 0, 0, printed256 []⟩
  if isDangerousPath dirPath then
    some ⟨tree, { result with
      errorMessage := printed256 "Dangerous path rejected".toList
      resultCode := .dangerousPath }, []⟩
  else
    let rejected : FolderRun := ⟨tree, { result with
      errorMessage := printed256 "Not a directory".toList
      resultCode := .generic }, []⟩
    match (if io.lstatTop then tree.lstat dirPath else none) with
    | none => some rejected
    | some n =>
      if tree.kind n ≠ .directory then some rejected
      else
        (folderEraseRecursive fuel io opts (tree.device n) (opts.maxDepth+1) [] dirPath
          ⟨tree, result, [], []⟩).map
          (fun r => ⟨r.1.tree, { r.1.result with resultCode := r.2 }, r.1.events⟩)

end EraseCure.FolderEraser
