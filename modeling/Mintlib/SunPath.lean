import Mintlib.Symlink
import Mintlib.Lib.Checked
import Mintlib.Posix

/-!
# The paths of local sockets: `sendmsg.c`, `recvmsg.c`, `recvfrom.c` and others

An address that is sent is translated into a `sockaddr_un` on the stack. One that is received is
translated into an array on the stack and from there back into the buffer of the caller. Both are
told to the translators as `PATH_MAX` bytes long.
-/

namespace Mintlib.SunPath

open Text Unx2dos PathLists NameRoom Posix
open Checked (Stop ok_bind)

abbrev AF_UNIX : ℕ := 1

/-- `sizeof (un.sun_path)`. -/
def SUN_PATH : ℕ := 128

def UN_OFFSET : ℕ := 2

/-- An array of `SUN_PATH` bytes on the stack. -/
abbrev Local := { mem : Str // mem.length = SUN_PATH }

def store (block bytes : Str) : Except Stop Str :=
  if bytes.length ≤ block.length then .ok (bytes ++ block.drop bytes.length) else .error .bounds

/-- `_unx2dos` into a block. For a device of TOS `strncpy` fills up all of `len` with NULs. -/
def unx2dosInto (σ : Sys) (block unx : Str) (len : ℕ) : Except Stop Str :=
  if IsDevice σ unx ∧ block.length < less len 1 then .error .bounds
  else match unx2dos σ unx len with
    | some (t, _) => store block (t ++ [0])
    | none => .error .bounds

def dos2unxInto (σ : Sys) (block dos : Str) (len : ℕ) : Except Stop Str :=
  store block ((dos2unx σ dos len).1 ++ [0])

/-- The loop of `_sncpy`: the bytes that it stores, and the count if a NUL was among them. -/
def sncpyLoop : ℕ → Str → Except Stop (Str × Option ℕ)
  | 0, _ => .ok ([], none)
  | _ + 1, [] => .error .bounds
  | count + 1, c :: src =>
    if c = 0 then .ok ([0], some count)
    else do
      let (bytes, left) ← sncpyLoop count src
      .ok (c :: bytes, left)

def sncpy (dst src : Str) (len : ℕ) : Except Stop (Str × ℕ) :=
  -- `count` is an `int`
  if len = 0 ∨ 2 ^ 31 ≤ len then .ok (dst, 0)
  else do
    let (bytes, left) ← sncpyLoop len src
    match left with
    | none =>
      let dst ← store dst (bytes.dropLast ++ [0])
      .ok (dst, len - 1)
    | some count =>
      let dst ← store dst bytes
      .ok (dst, len - count - 1)

/-- What is found at an address, and the length that is given with it. -/
structure Address where
  family : ℕ
  sun_path : Str
  namelen : ℕ
deriving DecidableEq

/-- What was passed to `Fcntl`, if it was called, and what is returned. -/
structure Sent where
  passed : Option (Option Address)
  answer : Except ℤ ℤ

/-- The address is to be translated: neither `__libc_unix_names` nor another family. -/
def Translates (unixNames : Bool) (family : ℕ) : Prop := unixNames = false ∧ family = AF_UNIX

instance (unixNames : Bool) (family : ℕ) : Decidable (Translates unixNames family) :=
  inferInstanceAs (Decidable (_ ∧ _))

/-- `un` and its length. -/
def dosAddress (σ : Sys) (un : Local) (addr : Address) : Except Stop (Except ℤ Address) :=
  if addr.namelen ≤ UN_OFFSET ∨ UN_OFFSET + SUN_PATH < addr.namelen then .ok (.error EINVAL)
  else do
    let sun_path ← unx2dosInto σ un.1 (cstr addr.sun_path) PATH_MAX
    let sun_path := sun_path.set (SUN_PATH - 1) 0
    .ok (.ok ⟨AF_UNIX, sun_path, UN_OFFSET + (cstr sun_path).length⟩)

/-- The kernel: whether there are new calls and what they give, and what `Fcntl` gives. -/
structure Sender where
  newsockets : Bool
  Fnew : ℤ
  Fcntl : Option Address → ℤ

/-- What the calls that send an address have in common: `keep` is how they pass on one that is not
translated, and `answer` what they make of the result. -/
def sendAddress (keep : Address → Address) (answer : ℤ → Except ℤ ℤ) (K : Sender) (σ : Sys)
    (unixNames : Bool) (un : Local) (addr : Option Address) : Except Stop Sent :=
  let pass (addr : Option Address) : Sent := ⟨some addr, answer (K.Fcntl addr)⟩
  if K.newsockets ∧ K.Fnew ≠ -ENOSYS then .ok ⟨none, answer K.Fnew⟩
  else match addr with
    | none => .ok (pass none)
    | some addr =>
      if Translates unixNames addr.family then do
        match ← dosAddress σ un addr with
        | .error errno => .ok ⟨none, .error errno⟩
        | .ok un => .ok (pass (some un))
      else .ok (pass (some (keep addr)))

def sendmsg := sendAddress id toAnswer

/-- `(short) addrlen`. -/
def shortLength (addr : Address) : Address := { addr with namelen := addr.namelen % 2 ^ 16 }

def sendto := sendAddress shortLength toAnswer

protected def bind := sendAddress shortLength fun r => (toAnswer r).map fun _ => 0

def connect := sendAddress shortLength fun r => (toAnswer r).map fun _ => 0

/-- What a call of the kernel leaves: its result, the bytes in the buffer of the caller behind the
family, as many as its length allows, those behind the buffer, and the length that it reports. -/
structure Reply (oaddrlen : ℕ) where
  r : ℤ
  family : ℕ
  sun_path : Str
  room : sun_path.length = oaddrlen - UN_OFFSET
  beyond : Str
  namelen : ℤ

/-- What is returned, what is in the buffer then, and the length that is reported. -/
structure Received where
  answer : Except ℤ ℤ
  sun_path : Str
  namelen : ℤ

section Receive

variable {oaddrlen : ℕ}

def Reply.asIs (reply : Reply oaddrlen) : Received :=
  ⟨toAnswer reply.r, reply.sun_path, reply.namelen⟩

def Reply.path (reply : Reply oaddrlen) : Str := cstr (reply.sun_path ++ reply.beyond)

/-- The kernel: whether there are new calls and what they leave, and what `Fcntl` leaves. -/
structure Receiver (oaddrlen : ℕ) where
  newsockets : Bool
  Fnew : Reply oaddrlen
  Fcntl : Reply oaddrlen

def Reply.Wanted (reply : Reply oaddrlen) (unixNames addr : Bool) : Prop :=
  Translates unixNames reply.family ∧ addr = true ∧ 0 ≤ reply.r ∧ UN_OFFSET < reply.namelen

instance (reply : Reply oaddrlen) (unixNames addr : Bool) :
    Decidable (reply.Wanted unixNames addr) :=
  inferInstanceAs (Decidable (_ ∧ _))

/-- The path through `name` back into the buffer. -/
def unixAddress (σ : Sys) (name : Local) (reply : Reply oaddrlen) : Except Stop Received := do
  let name ← dos2unxInto σ name.1 reply.path PATH_MAX
  let copied ← sncpy reply.sun_path name (less oaddrlen UN_OFFSET)
  .ok ⟨toAnswer reply.r, copied.1, UN_OFFSET + copied.2⟩

/-- What the calls that receive an address have in common; `addr` says that the buffer and the
place for its length are there. -/
def receiveAddress (K : Receiver oaddrlen) (σ : Sys) (unixNames : Bool) (name : Local)
    (addr : Bool) : Except Stop Received :=
  if K.newsockets ∧ K.Fnew.r ≠ -ENOSYS then .ok K.Fnew.asIs
  else if K.Fcntl.Wanted unixNames addr then unixAddress σ name K.Fcntl
  else .ok K.Fcntl.asIs

/-- `msg->msg_name` may be `NULL`. -/
def recvmsg (K : Receiver oaddrlen) (σ : Sys) (unixNames : Bool) (name : Local) (unp : Bool) :=
  receiveAddress K σ unixNames name unp

/-- Both pointers may be `NULL`; the length of the kernel is a `short`. -/
def recvfrom (K : Receiver oaddrlen) (σ : Sys) (unixNames : Bool) (name : Local)
    (addr addrlen : Bool) :=
  receiveAddress K σ unixNames name (addr && addrlen)

def accept (K : Receiver oaddrlen) (σ : Sys) (unixNames : Bool) (name : Local)
    (addr addrlen : Bool) :=
  receiveAddress K σ unixNames name (addr && addrlen)

end Receive

section Room

variable {σ : Sys} {block dst s u dos : Str} {len : ℕ}

theorem store_fits (h : s.length < block.length) :
    store block (s ++ [0]) = .ok (s ++ 0 :: block.drop (s.length + 1)) := by
  have hlen : (s ++ [0]).length = s.length + 1 := List.length_append
  rw [store, hlen, if_pos (Nat.succ_le_of_lt h), List.append_assoc, List.singleton_append]

theorem store_over (h : block.length ≤ s.length) : store block (s ++ [0]) = .error .bounds := by
  have hlen : (s ++ [0]).length = s.length + 1 := List.length_append
  rw [store, hlen, if_neg (by omega)]

theorem length_dosDrive_le_eight (σ : Sys) (u : Str) : (dosDrive σ u).1.length ≤ 8 := by
  unfold dosDrive
  split_ifs <;> simp [UDEV, UPIPE]

theorem unx2dos_take (h : ¬ IsDevice σ u) (hlow : 9 < len) (hlen : len < 2 ^ 32) :
    ∃ ret, unx2dos σ u len = some ((dosName σ u).take (len - 1), ret) := by
  have hdrive := length_dosDrive_le_eight σ u
  have hless : less (less len 1) (dosDrive σ u).1.length = len - 1 - (dosDrive σ u).1.length := by
    rw [less_eq (by omega) hlen, less_eq (by omega) (by omega)]
  have hwhole : (dosDrive σ u).1 ++ ((dosDrive σ u).2.map dosChar).take
      (len - 1 - (dosDrive σ u).1.length) = (dosName σ u).take (len - 1) := by
    rw [dosName_eq_drive, List.take_append,
      List.take_of_length_le (show (dosDrive σ u).1.length ≤ len - 1 by omega)]
  rw [unx2dos_eq_copy h, hless, Symlink.copy_take (by omega) (by omega), hwhole]
  exact ⟨_, rfl⟩

/-- The array has room for what is cut at `PATH_MAX` exactly if it has room for all of it. -/
theorem store_cut (hblock : block.length = SUN_PATH) :
    store block (s.take (PATH_MAX - 1) ++ [0]) =
      if s.length < SUN_PATH then .ok (s ++ 0 :: block.drop (s.length + 1)) else .error .bounds := by
  have hsizes : SUN_PATH < PATH_MAX - 1 := by decide
  split
  · next h =>
    rw [List.take_of_length_le (by omega), store_fits (by omega)]
  · next h =>
    refine store_over ?_
    rw [List.length_take]
    omega

theorem unx2dosInto_eq (hblock : block.length = SUN_PATH) :
    unx2dosInto σ block u PATH_MAX =
      if ¬ IsDevice σ u ∧ (dosName σ u).length < SUN_PATH then
        .ok (dosName σ u ++ 0 :: block.drop ((dosName σ u).length + 1))
      else .error .bounds := by
  rw [unx2dosInto]
  by_cases hdevice : IsDevice σ u
  · have hfill : block.length < less PATH_MAX 1 := by
      rw [hblock]
      decide
    rw [if_pos ⟨hdevice, hfill⟩, if_neg (fun h => h.1 hdevice)]
  · obtain ⟨ret, hcall⟩ := unx2dos_take hdevice (show 9 < PATH_MAX by decide) (by decide)
    rw [if_neg (fun h => hdevice h.1), hcall]
    simp only [store_cut hblock, hdevice, not_false_eq_true, true_and]

theorem dos2unxInto_eq (hblock : block.length = SUN_PATH) :
    dos2unxInto σ block dos PATH_MAX =
      if (σ.unxName dos).length < SUN_PATH then
        .ok (σ.unxName dos ++ 0 :: block.drop ((σ.unxName dos).length + 1))
      else .error .bounds := by
  rw [dos2unxInto, Symlink.dos2unx_take (by decide) (by decide), store_cut hblock]

end Room

section Sncpy

variable {dst s rest : Str} {count : ℕ}

theorem sncpyLoop_eq (h0 : 0 ∉ s) (rest : Str) : ∀ count, sncpyLoop count (s ++ 0 :: rest) =
    .ok (if s.length < count then (s ++ [0], some (count - s.length - 1))
      else (s.take count, none)) := by
  induction s with
  | nil =>
    intro count
    cases count with
    | zero => rfl
    | succ count =>
      rw [List.nil_append, sncpyLoop, if_pos rfl, List.length_nil, if_pos (Nat.succ_pos _)]
      rfl
  | cons c s ih =>
    obtain ⟨hc, hs⟩ := not_or.mp (mt List.mem_cons.mpr h0)
    intro count
    cases count with
    | zero => rfl
    | succ count =>
      rw [List.cons_append, sncpyLoop, if_neg (Ne.symm hc), ih hs count, List.length_cons]
      by_cases h : s.length < count
      · rw [if_pos h, if_pos (by omega)]
        show Except.ok (c :: (s ++ [0]), some (count - s.length - 1)) = _
        rw [show count + 1 - (s.length + 1) - 1 = count - s.length - 1 by omega, List.cons_append]
      · rw [if_neg h, if_neg (by omega)]
        rfl

theorem sncpy_eq (h0 : 0 ∉ s) (rest : Str) (hpos : 0 < dst.length) (hint : dst.length < 2 ^ 31) :
    sncpy dst (s ++ 0 :: rest) dst.length =
      .ok (s.take (dst.length - 1) ++
          0 :: dst.drop ((s.take (dst.length - 1)).length + 1),
        (s.take (dst.length - 1)).length) := by
  rw [sncpy, if_neg (by omega), sncpyLoop_eq h0]
  by_cases h : s.length < dst.length
  · rw [if_pos h, List.take_of_length_le (Nat.le_sub_one_of_lt h)]
    have hreturn : dst.length - (dst.length - s.length - 1) - 1 = s.length := by omega
    simp only [bind, Except.bind, store_fits h, hreturn]
  · have hcut : (s.take dst.length).dropLast = s.take (dst.length - 1) := by
      rw [List.dropLast_eq_take, List.take_take, List.length_take]
      congr 1
      omega
    have hlen : (s.take (dst.length - 1)).length = dst.length - 1 := by
      rw [List.length_take]
      omega
    rw [if_neg h]
    simp only [bind, Except.bind, hcut, store_fits (show (s.take (dst.length - 1)).length <
      dst.length by omega), hlen]

theorem sncpy_none (src : Str) {len : ℕ} (h : len = 0 ∨ 2 ^ 31 ≤ len) :
    sncpy dst src len = .ok (dst, 0) := if_pos h

end Sncpy

theorem unxChar_ne_zero (σ : Sys) {c : UInt8} (h : c ≠ 0) : σ.unxChar c ≠ 0 := by
  unfold Sys.unxChar
  split_ifs
  · decide
  · exact mt (tolower_eq_iff (by decide)).mp h
  · exact h

theorem unxName_zero_notMem (σ : Sys) {dos : Str} (h0 : 0 ∉ dos) : 0 ∉ σ.unxName dos := by
  have hrest : ∀ rest : Str, 0 ∉ rest → 0 ∉ rest.map σ.unxChar := by
    intro rest h hmem
    obtain ⟨c, hc, hzero⟩ := List.mem_map.mp hmem
    exact unxChar_ne_zero σ (fun heq => h (heq ▸ hc)) hzero
  rw [Sys.unxName, Sys.unxDrive.eq_def]
  split
  · next c dos =>
    obtain ⟨hc, htail⟩ := not_or.mp (mt List.mem_cons.mpr h0)
    have hdev : tolower c ≠ 0 := mt (tolower_eq_iff (by decide)).mp (Ne.symm hc)
    have hdos := hrest dos fun h => htail (List.mem_cons_of_mem _ h)
    intro hmem
    rcases List.mem_append.mp hmem with hdrive | htext
    · revert hdrive
      simp only
      have hslash : (0 : UInt8) ≠ SLASH := by decide
      split_ifs <;> simp [hdev.symm, hslash]
    · exact hdos htext
  · exact hrest dos h0

section Send

variable {σ : Sys} {un : Local} {addr : Address} {u : Str} {K : Sender} {unixNames : Bool}
  {keep : Address → Address} {answer : ℤ → Except ℤ ℤ}

/-- The length of the address is one of a `sockaddr_un`. -/
def Address.Sized (addr : Address) : Prop :=
  UN_OFFSET < addr.namelen ∧ addr.namelen ≤ UN_OFFSET + SUN_PATH

/-- The translation has room in `sun_path`: it is no device of TOS and short enough. -/
def DosFits (σ : Sys) (u : Str) : Prop := ¬ IsDevice σ u ∧ (dosName σ u).length < SUN_PATH

/-- The call keeps to the array: an address with a wrong length is refused, and otherwise the kernel
is given the whole translation with a NUL behind it, and the length of what is there. -/
def SentRight (answer : ℤ → Except ℤ ℤ) (K : Sender) (σ : Sys) (addr : Address)
    (out : Except Stop Sent) : Prop :=
  (¬ addr.Sized ∧ out = .ok ⟨none, .error EINVAL⟩) ∨
  (addr.Sized ∧ ∃ sun_path, sun_path.length = SUN_PATH ∧
    dosName σ (cstr addr.sun_path) ++ [0] <+: sun_path ∧
    let sent : Address := ⟨AF_UNIX, sun_path, UN_OFFSET + (cstr sun_path).length⟩
    out = .ok ⟨some (some sent), answer (K.Fcntl (some sent))⟩)

theorem prefix_set {s : Str} (rest : Str) {k : ℕ} (h : s.length ≤ k) :
    s ++ [0] <+: (s ++ 0 :: rest).set k 0 := by
  rw [List.set_append_right _ _ h, List.prefix_append_right_inj]
  cases k - s.length with
  | zero => exact List.prefix_append [0] rest
  | succ j => exact List.prefix_append [0] (rest.set j 0)

variable (un) in
theorem dosAddress_fits (hsized : addr.Sized) (h : DosFits σ (cstr addr.sun_path)) :
    ∃ sun_path, sun_path.length = SUN_PATH ∧
      dosName σ (cstr addr.sun_path) ++ [0] <+: sun_path ∧
      dosAddress σ un addr =
        .ok (.ok ⟨AF_UNIX, sun_path, UN_OFFSET + (cstr sun_path).length⟩) := by
  obtain ⟨hlow, hhigh⟩ := hsized
  have hlt := h.2
  refine ⟨(dosName σ (cstr addr.sun_path) ++
    0 :: un.1.drop ((dosName σ (cstr addr.sun_path)).length + 1)).set (SUN_PATH - 1) 0, ?_, ?_, ?_⟩
  · rw [List.length_set, List.length_append, List.length_cons, List.length_drop, un.2]
    omega
  · exact prefix_set _ (Nat.le_sub_one_of_lt hlt)
  · rw [dosAddress, if_neg (by omega), unx2dosInto_eq un.2, if_pos (show _ ∧ _ from h)]
    rfl

theorem dosAddress_over (hsized : addr.Sized) (h : ¬ DosFits σ (cstr addr.sun_path)) :
    dosAddress σ un addr = .error .bounds := by
  obtain ⟨hlow, hhigh⟩ := hsized
  rw [dosAddress, if_neg (by omega), unx2dosInto_eq un.2, if_neg (show ¬ (_ ∧ _) from h)]
  rfl

def Sender.Translates (K : Sender) (unixNames : Bool) (addr : Address) : Prop :=
  ¬ (K.newsockets = true ∧ K.Fnew ≠ -ENOSYS) ∧ SunPath.Translates unixNames addr.family

theorem sendAddress_iff (h : K.Translates unixNames addr) :
    SentRight answer K σ addr (sendAddress keep answer K σ unixNames un (some addr)) ↔
      (addr.Sized → DosFits σ (cstr addr.sun_path)) := by
  have hcall : sendAddress keep answer K σ unixNames un (some addr) =
      dosAddress σ un addr >>= fun r =>
        match r with
        | .error errno => .ok ⟨none, .error errno⟩
        | .ok un => .ok ⟨some (some un), answer (K.Fcntl (some un))⟩ := by
    rw [sendAddress, if_neg h.1]
    exact if_pos h.2
  rw [hcall]
  by_cases hsized : addr.Sized
  · by_cases hfits : DosFits σ (cstr addr.sun_path)
    · obtain ⟨sun_path, hlen, hpre, heq⟩ := dosAddress_fits un hsized hfits
      rw [heq]
      exact iff_of_true (.inr ⟨hsized, sun_path, hlen, hpre, rfl⟩) (fun _ => hfits)
    · rw [dosAddress_over hsized hfits]
      refine iff_of_false ?_ (fun hall => hfits (hall hsized))
      rintro (⟨hnot, -⟩ | ⟨-, sun_path, -, -, heq⟩)
      · exact hnot hsized
      · cases heq
  · have hrefused : dosAddress σ un addr = .ok (.error EINVAL) := by
      rw [dosAddress, if_pos]
      rw [Address.Sized] at hsized
      omega
    rw [hrefused]
    exact iff_of_true (.inl ⟨hsized, rfl⟩) (fun h => absurd h hsized)

end Send

section Receive

variable {oaddrlen : ℕ} {σ : Sys} {name : Local} {reply : Reply oaddrlen} {K : Receiver oaddrlen}
  {unixNames addr : Bool}

/-- The translation has room in `name`, and the length of the buffer is an `int`, unless there is
nothing to store. -/
def UnxFits (σ : Sys) (reply : Reply oaddrlen) : Prop :=
  (σ.unxName reply.path).length < SUN_PATH ∧ (oaddrlen < 2 ^ 31 + UN_OFFSET ∨ reply.path = [])

/-- The call keeps to the array and to the buffer of the caller, which holds as much of the
translation as it has room for, with a NUL behind it, and the length of that is reported. -/
def ReceivedRight (σ : Sys) (reply : Reply oaddrlen) (out : Except Stop Received) : Prop :=
  ∃ got, out = .ok got ∧ got.sun_path.length = reply.sun_path.length ∧
    (reply.sun_path ≠ [] →
      (σ.unxName reply.path).take (reply.sun_path.length - 1) ++ [0] <+: got.sun_path) ∧
    got.namelen = UN_OFFSET + (cstr got.sun_path).length

def Receiver.Translates (K : Receiver oaddrlen) (unixNames addr : Bool) : Prop :=
  ¬ (K.newsockets = true ∧ K.Fnew.r ≠ -ENOSYS) ∧ K.Fcntl.Wanted unixNames addr

theorem cstr_eq_nil_iff {c : UInt8} (mem : Str) : cstr (c :: mem) = [] ↔ c = 0 := by
  rw [cstr]
  by_cases hc : c = 0
  · rw [if_pos hc]
    exact iff_of_true rfl hc
  · rw [if_neg hc]
    exact iff_of_false (List.cons_ne_nil _ _) hc

theorem less_offset (hlen : oaddrlen < 2 ^ 32) :
    less oaddrlen UN_OFFSET =
      if UN_OFFSET ≤ oaddrlen then oaddrlen - UN_OFFSET else oaddrlen + 2 ^ 32 - UN_OFFSET := by
  split
  · next h => exact less_eq h hlen
  · next h =>
    have hsmall : oaddrlen + 2 ^ 32 - UN_OFFSET < 2 ^ 32 := by omega
    rw [less, Nat.mod_eq_of_lt hsmall]

theorem unixAddress_over (h : ¬ (σ.unxName reply.path).length < SUN_PATH) :
    unixAddress σ name reply = .error .bounds := by
  rw [unixAddress, dos2unxInto_eq name.2, if_neg h]
  rfl

theorem unixAddress_eq (h : (σ.unxName reply.path).length < SUN_PATH) :
    unixAddress σ name reply =
      sncpy reply.sun_path (σ.unxName reply.path ++
          0 :: name.1.drop ((σ.unxName reply.path).length + 1)) (less oaddrlen UN_OFFSET) >>=
        fun p => .ok ⟨toAnswer reply.r, p.1, UN_OFFSET + p.2⟩ := by
  rw [unixAddress, dos2unxInto_eq name.2, if_pos h]
  exact ok_bind _ _

theorem unixAddress_none (h : (σ.unxName reply.path).length < SUN_PATH)
    (hnone : less oaddrlen UN_OFFSET = 0 ∨ 2 ^ 31 ≤ less oaddrlen UN_OFFSET) :
    unixAddress σ name reply = .ok ⟨toAnswer reply.r, reply.sun_path, UN_OFFSET⟩ := by
  rw [unixAddress_eq h, sncpy_none _ hnone]
  rfl

theorem receivedRight_copied (h : (σ.unxName reply.path).length < SUN_PATH)
    (hlen : oaddrlen < 2 ^ 32) (hpos : 0 < reply.sun_path.length)
    (hint : reply.sun_path.length < 2 ^ 31) :
    ReceivedRight σ reply (unixAddress σ name reply) := by
  have h0 : 0 ∉ σ.unxName reply.path := unxName_zero_notMem σ (cstr_clean _)
  have hroom := reply.room
  have hless : less oaddrlen UN_OFFSET = reply.sun_path.length := by
    rw [less_offset hlen, if_pos (by omega), hroom]
  have hcut : 0 ∉ (σ.unxName reply.path).take (reply.sun_path.length - 1) :=
    fun hmem => h0 (List.mem_of_mem_take hmem)
  rw [unixAddress_eq h, hless, sncpy_eq h0 _ hpos hint]
  refine ⟨_, rfl, ?_, fun _ => ?_, ?_⟩
  · show (_ ++ _ :: _).length = _
    rw [List.length_append, List.length_cons, List.length_drop, List.length_take]
    omega
  · show _ <+: _ ++ _ :: _
    rw [List.prefix_append_right_inj]
    exact List.prefix_append [0] _
  · show _ = (UN_OFFSET : ℤ) + (cstr (_ ++ 0 :: _)).length
    rw [cstr_append hcut]

/-- Where nothing is copied, the kernel must have left the empty path, or there is no room. -/
theorem receivedRight_none (h : (σ.unxName reply.path).length < SUN_PATH)
    (hnone : less oaddrlen UN_OFFSET = 0 ∨ 2 ^ 31 ≤ less oaddrlen UN_OFFSET) :
    ReceivedRight σ reply (unixAddress σ name reply) ↔
      reply.sun_path = [] ∨ reply.path = [] := by
  rw [unixAddress_none h hnone]
  by_cases hempty : reply.sun_path = []
  · refine iff_of_true ⟨_, rfl, rfl, fun hne => absurd hempty hne, ?_⟩ (.inl hempty)
    show (UN_OFFSET : ℤ) = UN_OFFSET + (cstr reply.sun_path).length
    rw [hempty]
    rfl
  · obtain ⟨c, mem, hmem⟩ := List.exists_cons_of_ne_nil hempty
    have hpath : reply.path = cstr (c :: (mem ++ reply.beyond)) := by
      rw [Reply.path, hmem, List.cons_append]
    rw [hpath, cstr_eq_nil_iff, or_iff_right hempty]
    constructor
    · rintro ⟨got, heq, -, -, hlength⟩
      obtain rfl := Except.ok.inj heq
      have hzero : (cstr (c :: mem)).length = 0 := by
        have hboth : (UN_OFFSET : ℤ) = UN_OFFSET + (cstr (c :: mem)).length := hmem ▸ hlength
        omega
      exact (cstr_eq_nil_iff mem).mp (List.eq_nil_of_length_eq_zero hzero)
    · intro hc
      have hnil : reply.path = [] := hpath.trans ((cstr_eq_nil_iff _).mpr hc)
      refine ⟨_, rfl, rfl, fun _ => ?_, ?_⟩
      · show (σ.unxName reply.path).take _ ++ [0] <+: reply.sun_path
        have hname : σ.unxName [] = [] := rfl
        rw [hnil, hmem, hc, hname, List.take_nil]
        exact List.prefix_append [0] mem
      · show (UN_OFFSET : ℤ) = UN_OFFSET + (cstr reply.sun_path).length
        rw [hmem, (cstr_eq_nil_iff mem).mpr hc]
        rfl

theorem unixAddress_iff (hlen : oaddrlen < 2 ^ 32) :
    ReceivedRight σ reply (unixAddress σ name reply) ↔ UnxFits σ reply := by
  have hroom := reply.room
  have hoffset : UN_OFFSET = 2 := rfl
  by_cases hfits : (σ.unxName reply.path).length < SUN_PATH
  · have hless := less_offset hlen
    have hempty : reply.sun_path = [] ↔ reply.sun_path.length = 0 := List.length_eq_zero_iff.symm
    rw [UnxFits, and_iff_right hfits]
    by_cases hcopied : 0 < reply.sun_path.length ∧ reply.sun_path.length < 2 ^ 31
    · exact iff_of_true (receivedRight_copied hfits hlen hcopied.1 hcopied.2) (.inl (by omega))
    · have hnone : less oaddrlen UN_OFFSET = 0 ∨ 2 ^ 31 ≤ less oaddrlen UN_OFFSET := by
        rw [hless]
        split <;> omega
      rw [receivedRight_none hfits hnone, hempty]
      refine or_congr_left ?_
      omega
  · rw [unixAddress_over hfits]
    refine iff_of_false ?_ (fun h => hfits h.1)
    rintro ⟨got, heq, -⟩
    cases heq

theorem receiveAddress_iff (hlen : oaddrlen < 2 ^ 32) (h : K.Translates unixNames addr) :
    ReceivedRight σ K.Fcntl (receiveAddress K σ unixNames name addr) ↔ UnxFits σ K.Fcntl := by
  rw [receiveAddress, if_neg h.1, if_pos h.2]
  exact unixAddress_iff hlen

end Receive

/-- No byte is stored behind the arrays and buffers, and lengths agree with what is stored, exactly
if: to send, the length is refused or the translation fits in `sun_path`; to receive, the
translation fits in `name`, although the buffer of the caller may be shorter or longer. -/
theorem sun_path_iff (σ : Sys) (unixNames : Bool) (un : Local) :
    (∀ (K : Sender) (addr : Address), K.Translates unixNames addr →
      (SentRight toAnswer K σ addr (sendmsg K σ unixNames un (some addr)) ↔
        (addr.Sized → DosFits σ (cstr addr.sun_path))) ∧
      (SentRight toAnswer K σ addr (sendto K σ unixNames un (some addr)) ↔
        (addr.Sized → DosFits σ (cstr addr.sun_path))) ∧
      (SentRight (fun r => (toAnswer r).map fun _ => 0) K σ addr
          (SunPath.bind K σ unixNames un (some addr)) ↔
        (addr.Sized → DosFits σ (cstr addr.sun_path))) ∧
      (SentRight (fun r => (toAnswer r).map fun _ => 0) K σ addr
          (connect K σ unixNames un (some addr)) ↔
        (addr.Sized → DosFits σ (cstr addr.sun_path)))) ∧
    ∀ oaddrlen, oaddrlen < 2 ^ 32 → ∀ (K : Receiver oaddrlen) (addr addrlen : Bool),
      (K.Translates unixNames addr →
        (ReceivedRight σ K.Fcntl (recvmsg K σ unixNames un addr) ↔ UnxFits σ K.Fcntl)) ∧
      (K.Translates unixNames (addr && addrlen) →
        (ReceivedRight σ K.Fcntl (recvfrom K σ unixNames un addr addrlen) ↔
          UnxFits σ K.Fcntl) ∧
        (ReceivedRight σ K.Fcntl (accept K σ unixNames un addr addrlen) ↔
          UnxFits σ K.Fcntl)) := by
  refine ⟨fun K addr h => ⟨?_, ?_, ?_, ?_⟩, fun oaddrlen hlen K addr addrlen => ⟨fun h => ?_, fun h =>
    ⟨?_, ?_⟩⟩⟩
  · exact sendAddress_iff h
  · exact sendAddress_iff h
  · exact sendAddress_iff h
  · exact sendAddress_iff h
  · exact receiveAddress_iff hlen h
  · exact receiveAddress_iff hlen h
  · exact receiveAddress_iff hlen h

def zeros : Local := ⟨List.replicate SUN_PATH 0, List.length_replicate⟩

def demoSender : Sender := ⟨false, 0, fun _ => 0⟩

/-- The kernel gives the path `"U:\\x"` in a buffer of eight bytes. -/
def demoReply : Reply 10 := ⟨0, AF_UNIX, [85, COLON, BACKSLASH, 120, 0, 1, 1, 1], rfl, [], 6⟩

def demoReceiver : Receiver 10 := ⟨false, demoReply, demoReply⟩

theorem demoReceiver_translates : demoReceiver.Translates false true :=
  ⟨by decide, by decide⟩

theorem sun_path_iff_demo :
    (SentRight toAnswer demoSender Symlink.demoSys ⟨AF_UNIX, [SLASH, 120], 4⟩
        (sendmsg demoSender Symlink.demoSys false zeros (some ⟨AF_UNIX, [SLASH, 120], 4⟩)) ↔
      ((⟨AF_UNIX, [SLASH, 120], 4⟩ : Address).Sized →
        DosFits Symlink.demoSys (cstr [SLASH, 120]))) ∧
    (ReceivedRight Symlink.demoSys demoReply
        (recvmsg demoReceiver Symlink.demoSys false zeros true) ↔
      UnxFits Symlink.demoSys demoReply) :=
  ⟨((sun_path_iff Symlink.demoSys false zeros).1 demoSender ⟨AF_UNIX, [SLASH, 120], 4⟩
      ⟨by decide, by decide⟩).1,
    ((sun_path_iff Symlink.demoSys false zeros).2 10 (by decide) demoReceiver true true).1
      demoReceiver_translates⟩

/-- A path of 127 characters, which a `sockaddr_un` has room for. -/
def longPath : Str := SLASH :: List.replicate 126 120 ++ [0]

/-- It becomes longer than the array by the root drive. -/
theorem root_drive_overruns :
    ¬ ∀ (K : Sender) (σ : Sys) (un : Local) (addr : Address), addr.sun_path.length = SUN_PATH →
      K.Translates false addr →
      SentRight toAnswer K σ addr (sendmsg K σ false un (some addr)) := by
  intro h
  have hright := h demoSender Symlink.demoSys zeros ⟨AF_UNIX, longPath, 129⟩
    (by decide +kernel) ⟨by decide, by decide⟩
  have hfits := (sendAddress_iff ⟨by decide, by decide⟩).mp hright ⟨by decide, by decide⟩
  exact absurd hfits.2 (by decide +kernel)

end Mintlib.SunPath
