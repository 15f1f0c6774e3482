/-!
# Machine integers, error numbers and flags

The file system is compiled for wasm32: `size_t` and `ssize_t` have 32 bits,
`off_t` and `__wasi_filesize_t` have 64.  A C++ integer is modelled by the
mathematical integer it stands for, and every conversion the compiler inserts
is one of the functions `u16`, `u32`, `u64`, `s32`, `s64` below.

The emscripten headers number `errno` as WASI does, so one enumeration serves
both the system calls, which return `-e`, and the WASI functions, which return
`e`.
-/

namespace WasmFS

/-! ## Conversions -/

/-- Conversion to a 16-bit unsigned integer (`__wasi_errno_t`). -/
def u16 (x : Int) : Nat := (x % 65536).toNat

/-- Conversion to a 32-bit unsigned integer (`size_t`, `__wasi_fd_t`). -/
def u32 (x : Int) : Nat := (x % 4294967296).toNat

/-- Conversion to a 64-bit unsigned integer (`__wasi_filesize_t`). -/
def u64 (x : Int) : Nat := (x % 18446744073709551616).toNat

/-- Conversion to a 32-bit signed integer (`int`, `ssize_t`), two's complement. -/
def s32 (x : Int) : Int := (x + 2147483648) % 4294967296 - 2147483648

/-- Conversion to a 64-bit signed integer (`off_t`), two's complement. -/
def s64 (x : Int) : Int := (x + 9223372036854775808) % 18446744073709551616 - 9223372036854775808

theorem u16_of_lt {n : Nat} (h : n < 65536) : u16 n = n := by
  unfold u16; omega

theorem u32_of_lt {n : Nat} (h : n < 4294967296) : u32 n = n := by
  unfold u32; omega

theorem u32_lt (x : Int) : u32 x < 4294967296 := by
  unfold u32; omega

theorem u64_of_lt {n : Nat} (h : n < 18446744073709551616) : u64 n = n := by
  unfold u64; omega

theorem u64_lt (x : Int) : u64 x < 18446744073709551616 := by
  unfold u64; omega

theorem s32_of_mem {x : Int} (h₀ : -2147483648 ≤ x) (h₁ : x < 2147483648) : s32 x = x := by
  unfold s32; omega

theorem s32_of_lt {n : Nat} (h : n < 2147483648) : s32 n = n := by
  unfold s32; omega

theorem s64_of_mem {x : Int} (h₀ : -9223372036854775808 ≤ x) (h₁ : x < 9223372036854775808) :
    s64 x = x := by
  unfold s64; omega

/-- A number that goes through `int` on its way to a slot. -/
theorem u32_s32 (fd : UInt32) : u32 (s32 fd.toNat) = fd.toNat := by
  have hlt := fd.toNat_lt
  simp only [u32, s32]
  omega

/-! ## Bytes, names and times -/

/-- A `std::string` or `std::string_view`. -/
abbrev Name := List UInt8

/-- `'/'` -/
def slash : UInt8 := 47

/-- `"."` -/
def dot : Name := [46]

/-- `".."` -/
def dotdot : Name := [46, 46]

/-- The string a `char*` points at: everything before the first NUL. -/
def cstr (memory : List UInt8) : Name := memory.takeWhile (· != 0)

/-- The bit pattern of a `double`.  Times are stored and never computed with. -/
abbrev Time := UInt64

/-! ## Error numbers -/

/-- The error numbers of `<errno.h>` and of `__wasi_errno_t` used here. -/
inductive Errno where
  | acces | badf | busy | exist | fbig | inval | io | isdir | loop | nametoolong
  | nodev | noent | notdir | notempty | perm | spipe | xdev
deriving DecidableEq, Repr

/-- The number of an error, the same in both conventions. -/
def Errno.code : Errno → Nat
  | .acces => 2
  | .badf => 8
  | .busy => 10
  | .exist => 20
  | .fbig => 22
  | .inval => 28
  | .io => 29
  | .isdir => 31
  | .loop => 32
  | .nametoolong => 37
  | .nodev => 43
  | .noent => 44
  | .notdir => 54
  | .notempty => 55
  | .perm => 63
  | .spipe => 70
  | .xdev => 75

/-- `-E…`, as a system call returns it. -/
def Errno.neg (e : Errno) : Int := -(e.code : Int)

theorem Errno.code_pos (e : Errno) : 0 < e.code := by cases e <;> decide

theorem Errno.code_lt (e : Errno) : e.code < 76 := by cases e <;> decide

@[simp] theorem Errno.neg_lt_zero (e : Errno) : e.neg < 0 := by
  have := e.code_pos
  unfold Errno.neg
  omega

@[simp] theorem Errno.neg_ne_zero (e : Errno) : e.neg ≠ 0 := by
  have := e.neg_lt_zero
  omega

theorem Errno.u16_neg (e : Errno) : u16 e.neg = 65536 - e.code := by
  have hpos := e.code_pos
  have hlt := e.code_lt
  simp only [u16, Errno.neg]
  omega

theorem Errno.u16_neg_ne_zero (e : Errno) : u16 e.neg ≠ 0 := by
  have hlt := e.code_lt
  rw [e.u16_neg]
  omega

theorem Errno.u16_code (e : Errno) : u16 e.code = e.code :=
  u16_of_lt (Nat.lt_trans e.code_lt (by decide))

theorem Errno.u32_neg (e : Errno) : u32 e.neg = 4294967296 - e.code := by
  have hpos := e.code_pos
  have hlt := e.code_lt
  simp only [u32, Errno.neg]
  omega

/-- An error is no descriptor: it has the top bit set. -/
theorem Errno.u32_neg_ge (e : Errno) : 2147483648 ≤ u32 e.neg := by
  have hlt := e.code_lt
  rw [e.u32_neg]
  omega

/-! ## Flags and modes -/

def O_ACCMODE : Nat := 0x3
def O_RDONLY : Nat := 0
def O_WRONLY : Nat := 1
def O_RDWR : Nat := 2
def O_CREAT : Nat := 0x40
def O_EXCL : Nat := 0x80
def O_TRUNC : Nat := 0x200
def O_APPEND : Nat := 0x400
def O_DIRECTORY : Nat := 0x10000
def O_NOFOLLOW : Nat := 0x20000

/-- `flags & flag` as a truth value. -/
def hasFlag (flags flag : Nat) : Bool := flags &&& flag != 0

def S_IFREG : Nat := 0o100000
def S_IFDIR : Nat := 0o040000
def S_IFLNK : Nat := 0o120000
def S_IFCHR : Nat := 0o020000
def S_ISVTX : Nat := 0o1000
def S_IRUGO : Nat := 0o444
def S_IWUGO : Nat := 0o222
def S_IXUGO : Nat := 0o111
def S_IRWXUGO : Nat := 0o777
def S_IALLUGO : Nat := 0o7777

def WASMFS_PERM_READ : Nat := 0o444
def WASMFS_PERM_WRITE : Nat := 0o222

/-- The maximum length of a file name. -/
def WASMFS_NAME_MAX : Nat := 255

/-! ## Faults -/

/-- The ways a call can fail to return: the program dereferences a null
pointer, copies outside a buffer, grows a container past its maximum size, or
loops for ever. -/
inductive Fault where
  | nullDeref
  | outOfBounds
  | lengthError
  | diverges
deriving DecidableEq, Repr

end WasmFS
