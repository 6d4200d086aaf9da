import Bytework.Path.Posix
import Bytework.Volume.Errno

/-!
# Failures

Why an operation on a file tree failed.

* `Call`: a call of a file system with its paths, as failures name it.
* `Failure`: a failed call, a refusal of the operation itself, or words that a platform reported.
* `Failure.message`: what a failure says; `Failure.errno?`: the error number behind it.
-/

namespace Bytework

/-- A call of a file system, with the paths it was given. -/
inductive Call
  | stat (path : Path)
  | lstat (path : Path)
  | opendir (path : Path)
  /-- The path is that of the entry to be read. -/
  | readdir (path : Path)
  | closedir (path : Path)
  | mkdir (path : Path)
  | rmdir (path : Path)
  | rename (old new : Path)
  | unlink (path : Path)
  | chmod (path : Path)
  | symlink (target path : Path)
  | readlink (path : Path)
  | link (target path : Path)
  | copyFile (source copy : Path)
  | getcwd
  | realpath (path : Path)
  deriving DecidableEq, Repr

namespace Call

/-- The name of a call. -/
def name : Call → String
  | stat _ => "stat"
  | lstat _ => "lstat"
  | opendir _ => "opendir"
  | readdir _ => "readdir"
  | closedir _ => "closedir"
  | mkdir _ => "mkdir"
  | rmdir _ => "rmdir"
  | rename _ _ => "rename"
  | unlink _ => "unlink"
  | chmod _ => "chmod"
  | symlink _ _ => "symlink"
  | readlink _ => "readlink"
  | link _ _ => "link"
  | copyFile _ _ => "copy_file"
  | getcwd => "getcwd"
  | realpath _ => "realpath"

/-- The path that a call is about: the one it starts from, and for a symbolic link the new one. -/
def path : Call → Path
  | stat p | lstat p | opendir p | readdir p | closedir p | mkdir p | rmdir p => p
  | rename old _ => old
  | unlink p | chmod p => p
  | symlink _ p => p
  | readlink p => p
  | link target _ => target
  | copyFile source _ => source
  | getcwd => []
  | realpath p => p

/-- A call of one path. -/
def onPath (verb : String) (p : Path) : List Char := verb.toList ++ ' ' :: p

/-- A call from one path to another. -/
def onPaths (verb : String) (p q : Path) : List Char := onPath verb p ++ " -> ".toList ++ q

/-- How a failure names a call; reading and closing an open directory are not named. -/
def context? : Call → Option (List Char)
  | stat p => some (onPath "stat" p)
  | lstat p => some (onPath "lstat" p)
  | opendir p => some (onPath "opendir" p)
  | readdir _ => none
  | closedir _ => none
  | mkdir p => some (onPath "mkdir" p)
  | rmdir p => some (onPath "rmdir" p)
  | rename old new => some (onPaths "rename" old new)
  | unlink p => some (onPath "unlink" p)
  | chmod p => some (onPath "chmod" p)
  | symlink target p => some (onPaths "symlink" p target)
  | readlink p => some (onPath "readlink" p)
  | link target p => some (onPaths "link" p target)
  | copyFile source copy => some (onPaths "copy" source copy)
  | getcwd => some "getcwd".toList
  | realpath p => some (onPath "realpath" p)

end Call

/-- Why an operation on a file tree failed. -/
inductive Failure
  /-- A call failed. -/
  | system (call : Call) (errno : Errno)
  /-- A platform failed with words of its own. -/
  | reported (text : List Char)
  /-- The empty path names nothing. -/
  | emptyPath
  /-- A directory was asked for. -/
  | notDirectory (path : Path)
  /-- A directory was to be made where something else stands. -/
  | occupied (path : Path)
  /-- A directory was to be copied to a place in itself. -/
  | intoItself (source target : Path)
  /-- A hard link to what is no file was asked for. -/
  | linkTarget (path : Path)
  /-- Every name for a temporary directory that was tried is taken. -/
  | noFreeName (base : Path) (attempts : Nat)
  /-- A tree that has more levels or entries than it had at the start. -/
  | endless
  deriving DecidableEq, Repr

namespace Failure

/-- The error number behind a failure. -/
def errno? : Failure → Option Errno
  | system _ errno => some errno
  | _ => none

/-- What a failure says, by its characters. -/
def text : Failure → List Char
  | system call errno =>
    match call.context? with
    | some context => context ++ ": ".toList ++ errno.text.toList
    | none => errno.text.toList
  | reported text => text
  | emptyPath => "invalid path: empty".toList
  | notDirectory path => path ++ " is not a directory".toList
  | occupied path => path ++ " exists and is not a directory".toList
  | intoItself source target =>
    "cannot copy ".toList ++ source ++ " into itself (".toList ++ target ++ [')']
  | linkTarget path => "hard links are supported for files only: ".toList ++ path
  | noFreeName base attempts =>
    "no free temp directory name in ".toList ++ base ++ s!" after {attempts} attempts".toList
  | endless => "the tree grows while it is walked".toList

/-- What a failure says. -/
def message (failure : Failure) : String := String.ofList failure.text

end Failure

end Bytework
