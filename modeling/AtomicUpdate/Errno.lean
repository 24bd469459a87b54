/-! Causes of failure. A cause is the number that the system gives it, or −1 where there is no
such number; a table assigns each listed number a stable code and a message. -/
namespace AtomicUpdate

structure Errno where
  number : Int
  deriving DecidableEq, Repr, Inhabited

namespace Errno

def eperm : Errno := ⟨1⟩
def enoent : Errno := ⟨2⟩
def eio : Errno := ⟨5⟩
def eagain : Errno := ⟨11⟩
def enomem : Errno := ⟨12⟩
def eacces : Errno := ⟨13⟩
def ebusy : Errno := ⟨16⟩
def eexist : Errno := ⟨17⟩
def exdev : Errno := ⟨18⟩
def enotdir : Errno := ⟨20⟩
def eisdir : Errno := ⟨21⟩
def einval : Errno := ⟨22⟩
def enospc : Errno := ⟨28⟩
def edeadlk : Errno := ⟨35⟩
def enametoolong : Errno := ⟨36⟩
def enotempty : Errno := ⟨39⟩
def eloop : Errno := ⟨40⟩

def unknown : Errno := ⟨-1⟩

def capabilityTag : Nat := 13900000

structure Entry where
  number : Int
  suffix : Nat
  message : String

def table : List Entry := [
  ⟨1, 1, "Operation not permitted"⟩,
  ⟨2, 2, "No such file or directory"⟩,
  ⟨3, 3, "No such process"⟩,
  ⟨4, 4, "Interrupted system call"⟩,
  ⟨5, 5, "I/O error"⟩,
  ⟨6, 6, "No such device or address"⟩,
  ⟨7, 7, "Arg list too long"⟩,
  ⟨9, 8, "Bad file descriptor"⟩,
  ⟨10, 9, "No child processes"⟩,
  ⟨11, 10, "Try again"⟩,
  ⟨12, 11, "Out of memory"⟩,
  ⟨13, 12, "Permission denied"⟩,
  ⟨14, 13, "Bad address"⟩,
  ⟨16, 14, "Device or resource busy"⟩,
  ⟨17, 15, "File exists"⟩,
  ⟨18, 16, "Cross-device link"⟩,
  ⟨19, 17, "No such device"⟩,
  ⟨20, 18, "Not a directory"⟩,
  ⟨21, 19, "Is a directory"⟩,
  ⟨22, 20, "Invalid argument"⟩,
  ⟨23, 21, "File table overflow"⟩,
  ⟨24, 22, "Too many open files"⟩,
  ⟨26, 23, "Text file busy"⟩,
  ⟨27, 24, "File too large"⟩,
  ⟨28, 25, "No space left on device"⟩,
  ⟨29, 26, "Illegal seek"⟩,
  ⟨30, 27, "Read-only file system"⟩,
  ⟨31, 28, "Too many links"⟩,
  ⟨35, 29, "Resource deadlock would occur"⟩,
  ⟨36, 30, "File name too long"⟩,
  ⟨38, 31, "Function not implemented"⟩,
  ⟨39, 32, "Directory not empty"⟩,
  ⟨40, 33, "Too many symbolic links encountered"⟩,
  ⟨61, 37, "No data available"⟩,
  ⟨75, 38, "Value too large for defined data type"⟩,
  ⟨122, 41, "Quota exceeded"⟩]

def entry (e : Errno) : Entry :=
  (table.find? (fun row => row.number = e.number)).getD ⟨e.number, 42, "Unknown error"⟩

def code (e : Errno) : Nat := capabilityTag + e.entry.suffix

def message (e : Errno) : String := e.entry.message

def describe (e : Errno) : String := s!"{e.message} (errno {e.number}, code {e.code})"

def inspect (e : Errno) : String :=
  "Error \x7b errno: " ++ toString e.number ++ ", code: " ++ toString e.code ++
    ", message: \"" ++ e.message ++ "\" \x7d"

def systemText (e : Errno) : String := s!"{e.message} (os error {e.number})"

theorem entryNumber (e : Errno) : e.entry.number = e.number := by
  unfold entry
  cases h : table.find? (fun row => row.number = e.number) with
  | none => rfl
  | some row => simpa using List.find?_some h

end Errno
end AtomicUpdate
