import Mathlib.Algebra.Group.Nat.Defs
import Mathlib.Data.PNat.Defs

/-!
# What the system calls have in common

The errors of `errno.h` and `netdb.h`, the greatest number of `limits.h`, the time of `time.h`, and
the way in which calls of the kernel tell a result from an error.
-/

namespace Mintlib.Posix

section Errno

variable {R : Type}

abbrev ESPIPE [OfNat R 6] : R := 6
abbrev ENODEV [OfNat R 15] : R := 15
abbrev EISDIR [OfNat R 24] : R := 24
abbrev EINVAL [OfNat R 25] : R := 25
abbrev ENOSYS [OfNat R 32] : R := 32
abbrev ENOENT [OfNat R 33] : R := 33
abbrev ENOTDIR [OfNat R 34] : R := 34
abbrev EACCES [OfNat R 36] : R := 36
abbrev EBADF [OfNat R 37] : R := 37
abbrev ENOMEM [OfNat R 39] : R := 39
abbrev EFAULT [OfNat R 40] : R := 40
abbrev EXDEV [OfNat R 48] : R := 48
abbrev EBADARG [OfNat R 64] : R := 64
abbrev ENOEXEC [OfNat R 66] : R := 66
abbrev ELOOP [OfNat R 80] : R := 80
abbrev EEXIST [OfNat R 85] : R := 85
abbrev ENAMETOOLONG [OfNat R 86] : R := 86
abbrev ENOTTY [OfNat R 87] : R := 87
abbrev ERANGE [OfNat R 88] : R := 88
abbrev ENOSPC [OfNat R 91] : R := 91
abbrev ESTALE [OfNat R 103] : R := 103
abbrev EINTR [OfNat R 128] : R := 128
abbrev ENOTSUP [OfNat R 350] : R := 350

end Errno

abbrev ULONG_MAX : ℕ := 2 ^ 32 - 1

abbrev EAI_BADFLAGS : ℤ := -1
abbrev EAI_NONAME : ℤ := -2
abbrev EAI_AGAIN : ℤ := -3
abbrev EAI_FAIL : ℤ := -4
abbrev EAI_NODATA : ℤ := -5
abbrev EAI_FAMILY : ℤ := -6
abbrev EAI_SOCKTYPE : ℤ := -7
abbrev EAI_SERVICE : ℤ := -8
abbrev EAI_SYSTEM : ℤ := -11
abbrev EAI_OVERFLOW : ℤ := -12

structure Timespec where
  tv_sec : ℤ
  tv_nsec : ℤ
deriving DecidableEq

def toAnswer (r : ℤ) : Except ℤ ℤ := if r < 0 then .error (-r) else .ok r

end Mintlib.Posix
