/-!
# Error numbers

The errors of a file system call, with their numbers and descriptions.
-/

namespace Bytework

/-- Why a file system call failed. -/
inductive Errno
  | notPermitted
  | noEntry
  | interrupted
  | inputOutput
  | badDescriptor
  | accessDenied
  | busy
  | entryExists
  | crossDevice
  | notDirectory
  | isDirectory
  | invalidArgument
  | tooManyOpenFiles
  | noSpace
  | tooManyLinks
  | notEmpty
  | linkLoop
  | stale
  deriving DecidableEq, Repr

namespace Errno

/-- All errors, in the order of their numbers. -/
def all : List Errno :=
  [notPermitted, noEntry, interrupted, inputOutput, badDescriptor, accessDenied, busy, entryExists,
    crossDevice, notDirectory, isDirectory, invalidArgument, tooManyOpenFiles, noSpace, tooManyLinks,
    notEmpty, linkLoop, stale]

/-- The number of an error. -/
def code : Errno → Nat
  | notPermitted => 1
  | noEntry => 2
  | interrupted => 4
  | inputOutput => 5
  | badDescriptor => 9
  | accessDenied => 13
  | busy => 16
  | entryExists => 17
  | crossDevice => 18
  | notDirectory => 20
  | isDirectory => 21
  | invalidArgument => 22
  | tooManyOpenFiles => 24
  | noSpace => 28
  | tooManyLinks => 31
  | notEmpty => 39
  | linkLoop => 40
  | stale => 116

/-- The error that has a number. -/
def ofCode? (n : Nat) : Option Errno := all.find? fun e => e.code == n

/-- What an error is called. -/
def description : Errno → String
  | notPermitted => "Operation not permitted"
  | noEntry => "No such file or directory"
  | interrupted => "Interrupted system call"
  | inputOutput => "Input/output error"
  | badDescriptor => "Bad file descriptor"
  | accessDenied => "Permission denied"
  | busy => "Device or resource busy"
  | entryExists => "File exists"
  | crossDevice => "Invalid cross-device link"
  | notDirectory => "Not a directory"
  | isDirectory => "Is a directory"
  | invalidArgument => "Invalid argument"
  | tooManyOpenFiles => "Too many open files"
  | noSpace => "No space left on device"
  | tooManyLinks => "Too many links"
  | notEmpty => "Directory not empty"
  | linkLoop => "Too many levels of symbolic links"
  | stale => "Stale file handle"

/-- The description of an error with its number. -/
def text (e : Errno) : String := s!"{e.description} (os error {e.code})"

end Errno

end Bytework
