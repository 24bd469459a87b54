/-! Numbers and spellings that the library fixes once. Sizes are in bytes and times in milliseconds.
A path is refused from `pathMax` bytes on, and a name only beyond `nameMax`. -/
namespace AtomicUpdate.Limits

def pathMax : Nat := 4096

def nameMax : Nat := 255

def linkMax : Nat := 40

def streamBuffer : Nat := 8192

/-- A buffer of this size or more cannot be reserved. -/
def addressSpace : Nat := 1 <<< 47

def tempSuffix : String := "_XXXXXX"

def placeholder : String := "XXXXXX"

def attempts : Nat := 100

def lockSuffix : String := ".lock"

def lockPoll : Nat := 25

def lockTimeout : Nat := 5000

def subsystem : String := "stagefile"

def envAllow : String := "STAGEFILE_TEST_ALLOW_ENV_OVERRIDES"

def envForce : String := "STAGEFILE_FORCE_EXDEV"

end AtomicUpdate.Limits
