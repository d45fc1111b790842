import Mintlib.Strn
import Mintlib.Lib.Text
import Mintlib.Posix

/-!
# Names of addresses: `getnameinfo.c`

Host and service are copied by `strncpy`, and the last byte of each buffer is set to NUL at the end.
`NI_NOFQDN` makes the length of the host's buffer smaller, which then is that of the short name.
-/

namespace Mintlib.Getnameinfo

open Text Stores Strn Posix Checked

abbrev NI_NUMERICHOST : BitVec 32 := 1
abbrev NI_NUMERICSERV : BitVec 32 := 2
abbrev NI_NOFQDN : BitVec 32 := 4
abbrev NI_NAMEREQD : BitVec 32 := 8
abbrev NI_DGRAM : BitVec 32 := 16

inductive Family
  | AF_LOCAL
  | AF_INET
  | AF_INET6
  | other
deriving DecidableEq

/-- `sizeof (struct sockaddr_in)` and `sizeof (struct sockaddr_in6)`. -/
def Family.size : Family → ℕ
  | .AF_INET => 16
  | .AF_INET6 => 28
  | _ => 0

/-- A buffer of the caller. An object is smaller than the distances that a `long` can hold. -/
structure Buffer where
  length : ℕ
  small : length < 2 ^ 31

/-- A call with what the functions that it calls answer. -/
structure Call where
  /-- The family of `sa`, which may be `NULL`. -/
  sa : Option Family
  addrlen : ℕ
  /-- `none` is `NULL`. -/
  host : Option Buffer
  serv : Option Buffer
  flags : BitVec 32
  port : ℕ
  sun_path : CStr
  /-- `h_name` of what `gethostbyaddr` finds. -/
  h_name : Option CStr
  /-- What `getdomainname` finds. -/
  domain : Option CStr
  /-- `nodename` of what `uname` finds. -/
  nodename : Option CStr
  /-- The address as text, if `inet_ntop` knows its family. -/
  text : Option CStr
  /-- `s_name` of what `getservbyport` finds for `"udp"` or for `"tcp"`. -/
  s_name : Bool → Option CStr

def Call.has (c : Call) (flag : BitVec 32) : Bool := c.flags &&& flag ≠ 0

/-- `strstr`: where the wanted text begins. -/
def strstr : Str → Str → Option ℕ
  | [], wanted => if wanted = [] then some 0 else none
  | c :: s, wanted => if wanted <+: c :: s then some 0 else (strstr s wanted).map (· + 1)

/-- The `.` in front of the domain, if `strstr` finds the domain behind one. -/
def dot (h_name domain : Str) : Option ℕ :=
  match strstr h_name domain with
  | some (k + 1) => if h_name[k]? = some DOT then some k else none
  | _ => none

/-- Where `NI_NOFQDN` cuts the name. -/
def Call.cut (c : Call) (h_name : Str) : Option ℕ :=
  if c.has NI_NOFQDN then c.domain.bind fun domain => dot h_name domain.1 else none

/-- `strncpy` into a buffer of `n` bytes, and the length that is taken for the buffer's. -/
def copy (mem : Memory) (p : ℕ) (s : CStr) (n : ℕ) : Option (Except ℤ (ℕ × Memory)) :=
  (strncpy mem p (some s) (BitVec.ofNat 32 n)).map fun mem => .ok (n, mem)

def inetNtop (text : Option CStr) (mem : Memory) (p size : ℕ) : Option Memory :=
  match text with
  | none => none
  | some tmp => if size < tmp.1.length then none else some (put mem p (tmp.1 ++ [0]))

/-- `"localhost"`. -/
def localhost : CStr := ⟨[108, 111, 99, 97, 108, 104, 111, 115, 116], by decide⟩

/-- `getnameinfo` for the host of an internet address: an error, or the length of the buffer and
memory. -/
def inetHost (c : Call) (hostlen p : ℕ) (mem : Memory) : Option (Except ℤ (ℕ × Memory)) :=
  match if c.has NI_NUMERICHOST then none else c.h_name with
  | some h_name =>
    match c.cut h_name.1 with
    | some k => copy mem p h_name (min hostlen k)
    | none => copy mem p h_name hostlen
  | none =>
    if c.has NI_NAMEREQD then some (.error EAI_NONAME)
    else
      match inetNtop c.text mem p hostlen with
      | none => some (.error EAI_SYSTEM)
      | some mem => some (.ok (hostlen, mem))

/-- `getnameinfo` for the host. -/
def hostPart (c : Call) (family : Family) (hostlen p : ℕ) (mem : Memory) :
    Option (Except ℤ (ℕ × Memory)) :=
  match family with
  | .AF_LOCAL =>
    match if c.has NI_NUMERICHOST then none else c.nodename with
    | some nodename => copy mem p nodename hostlen
    | none =>
      if c.has NI_NAMEREQD then some (.error EAI_NONAME) else copy mem p localhost hostlen
  | .AF_INET => inetHost c hostlen p mem
  | .AF_INET6 => inetHost c hostlen p mem
  | .other => some (.error EAI_FAMILY)

/-- `getnameinfo` for the service of an internet address. -/
def inetServ (c : Call) (servlen q : ℕ) (mem : Memory) : Option (Except ℤ (ℕ × Memory)) :=
  match if c.has NI_NUMERICSERV then none else c.s_name (c.has NI_DGRAM) with
  | some s_name => copy mem q s_name servlen
  | none =>
    -- `snprintf`
    let mem := put mem q ((decimal c.port).take (servlen - 1) ++ [0])
    if servlen ≤ (decimal c.port).length then some (.error EAI_OVERFLOW)
    else some (.ok (servlen, mem))

/-- `getnameinfo` for the service. -/
def servPart (c : Call) (family : Family) (servlen q : ℕ) (mem : Memory) :
    Option (Except ℤ (ℕ × Memory)) :=
  if family = .AF_LOCAL then copy mem q c.sun_path servlen else inetServ c servlen q mem

def ifGiven (buffer : Option Buffer) (mem : Memory)
    (part : ℕ → Memory → Option (Except ℤ (ℕ × Memory))) : Option (Except ℤ (ℕ × Memory)) :=
  match buffer with
  | none => some (.ok (0, mem))
  | some buffer => if 0 < buffer.length then part buffer.length mem else some (.ok (0, mem))

/-- `if (buf && buflen > 0) buf[buflen - 1] = 0`. -/
def terminate (mem : Memory) (p length : ℕ) : Memory :=
  if 0 < length then Function.update mem (p + length - 1) 0 else mem

/-- `getnameinfo` with the host's buffer at `p` and the service's at `q`: what it returns, and
memory. -/
def getnameinfo (c : Call) (p q : ℕ) (mem : Memory) : Option (ℤ × Memory) :=
  if c.flags &&& ~~~(NI_NUMERICHOST ||| NI_NUMERICSERV ||| NI_NOFQDN ||| NI_NAMEREQD |||
      NI_DGRAM) ≠ 0 then some (EAI_BADFLAGS, mem)
  else
    match c.sa with
    | none => some (EAI_FAMILY, mem)
    | some family =>
      if c.addrlen < 2 ∨ c.addrlen < family.size ∨ family = .other then some (EAI_FAMILY, mem)
      else
        match ifGiven c.host mem fun hostlen mem => hostPart c family hostlen p mem with
        | none => none
        | some (.error code) => some (code, mem)
        | some (.ok (hostlen, mem)) =>
          match ifGiven c.serv mem fun servlen mem => servPart c family servlen q mem with
          | none => none
          | some (.error code) => some (code, mem)
          | some (.ok (servlen, mem)) =>
            some (0, terminate (terminate mem p hostlen) q servlen)

def Holds (mem : Memory) (p : ℕ) (s : Str) : Prop := ∀ i ≤ s.length, mem (p + i) = s.getD i 0

/-- The part of the name in front of the `.` and the domain at its end. -/
def short (h_name domain : Str) : Str :=
  if DOT :: domain <:+ h_name then h_name.take (h_name.length - (domain.length + 1)) else h_name

/-- The name that has been found, or its part in front of the local domain. -/
def Call.wantedName (c : Call) (h_name : Str) : Str :=
  match if c.has NI_NOFQDN then c.domain else none with
  | some domain => short h_name domain.1
  | none => h_name

def Call.wantedInet (c : Call) : Str :=
  match if c.has NI_NUMERICHOST then none else c.h_name with
  | some h_name => c.wantedName h_name.1
  | none => c.text.elim [] (·.1)

def Call.wantedHost (c : Call) (family : Family) : Str :=
  match family with
  | .AF_LOCAL => ((if c.has NI_NUMERICHOST then none else c.nodename).getD localhost).1
  | _ => c.wantedInet

def Call.wantedInetServ (c : Call) : Str :=
  match if c.has NI_NUMERICSERV then none else c.s_name (c.has NI_DGRAM) with
  | some s_name => s_name.1
  | none => decimal c.port

def Call.wantedServ (c : Call) (family : Family) : Str :=
  if family = .AF_LOCAL then c.sun_path.1 else c.wantedInetServ

def Inside (buffer : Option Buffer) (p a : ℕ) : Prop :=
  ∃ b, buffer = some b ∧ p ≤ a ∧ a < p + b.length

/-- The strings stand in their buffers, cut only where they do not fit, and nothing else has been
written. -/
structure Good (c : Call) (family : Family) (p q : ℕ) (mem mem' : Memory) : Prop where
  host : ∀ b, c.host = some b → 0 < b.length →
    Holds mem' p ((c.wantedHost family).take (b.length - 1))
  serv : ∀ b, c.serv = some b → 0 < b.length →
    Holds mem' q ((c.wantedServ family).take (b.length - 1))
  frame : ∀ a, ¬ Inside c.host p a → ¬ Inside c.serv q a → mem' a = mem a

def Apart (c : Call) (p q : ℕ) : Prop := ∀ a, ¬ (Inside c.host p a ∧ Inside c.serv q a)

/-- Wherever the buffers are and whatever is in memory, the call comes to its end, and if it returns
0 the strings are there. -/
def Call.Stores (c : Call) : Prop :=
  ∀ p q mem, Apart c p q → ∃ ret mem', getnameinfo c p q mem = some (ret, mem') ∧
    (ret = 0 → ∃ family, c.sa = some family ∧ Good c family p q mem mem')

/-- A part of the work has left memory such that the string is there once the last byte of the
length that it gives is NUL. -/
structure Stored (mem : Memory) (p length : ℕ) (s : Str) (n : ℕ) (mem' : Memory) : Prop where
  pos : 0 < n
  le : n ≤ length
  frame : ∀ a, a < p ∨ p + length ≤ a → mem' a = mem a
  holds : ∀ m : Memory, (∀ a, p ≤ a → a < p + length → m a = mem' a) →
    Holds (Function.update m (p + n - 1) 0) p s
  fits : s.length < length

theorem put_outside {mem : Memory} {p a : ℕ} {s : Str} (h : a < p ∨ p + s.length ≤ a) :
    put mem p s a = mem a := if_neg (by omega)

theorem put_inside {mem : Memory} {p i : ℕ} {s : Str} (h : i < s.length) :
    put mem p s (p + i) = s.getD i 0 := by
  rw [put, if_pos (by omega), Nat.add_sub_cancel_left]

/-- What `strncpy` stores. -/
def padded (s : Str) (n : ℕ) : Str := s.take n ++ List.replicate (n - s.length) 0

theorem padded_length (s : Str) (n : ℕ) : (padded s n).length = n := by
  rw [padded, List.length_append, List.length_take, List.length_replicate]
  omega

theorem take_getD (s : Str) (n i : ℕ) :
    (s.take n).getD i 0 = if i < n then s.getD i 0 else 0 := by
  rw [List.getD_eq_getElem?_getD, List.getElem?_take, List.getD_eq_getElem?_getD]
  split_ifs <;> rfl

theorem padded_getD (s : Str) {n i : ℕ} (hi : i < n) : (padded s n).getD i 0 = s.getD i 0 := by
  rw [padded]
  by_cases hin : i < s.length
  · rw [List.getD_append _ _ _ _ (by rw [List.length_take]; omega), take_getD, if_pos hi]
  · have hlength : (s.take n).length = s.length := by
      rw [List.length_take]
      omega
    rw [List.getD_append_right _ _ _ _ (by omega), hlength, List.getD_replicate _ (by omega),
      List.getD_eq_default _ _ (by omega)]

theorem copy_total (mem : Memory) (p : ℕ) (s : CStr) {n : ℕ} (hsmall : n < 2 ^ 31) :
    copy mem p s n = some (.ok (n, put mem p (padded s.1 n))) := by
  have hn : (BitVec.ofNat 32 n).toNat = n := by
    rw [BitVec.toNat_ofNat]
    omega
  have hcopy := (strncpy_iff s (BitVec.ofNat 32 n)).mpr (by omega) mem p
  rw [hn] at hcopy
  rw [copy, hcopy]
  rfl

theorem copy_stored (mem : Memory) (p : ℕ) (s : CStr) {n length : ℕ} (hpos : 0 < n)
    (hle : n ≤ length) (hsmall : length < 2 ^ 31) :
    ∃ mem', copy mem p s n = some (.ok (n, mem')) ∧
      Stored mem p length (s.1.take (n - 1)) n mem' := by
  refine ⟨put mem p (padded s.1 n), copy_total mem p s (by omega), hpos, hle, ?_, ?_, ?_⟩
  · intro a ha
    exact put_outside (by rw [padded_length]; omega)
  · intro m hm i hi
    rw [List.length_take] at hi
    rw [take_getD]
    by_cases hlast : i = n - 1
    · rw [hlast, if_neg (lt_irrefl _), show p + n - 1 = p + (n - 1) by omega, Function.update_self]
    · rw [Function.update_of_ne (by omega), hm _ (by omega) (by omega), if_pos (by omega),
        put_inside (by rw [padded_length]; omega), padded_getD _ (by omega)]
  · rw [List.length_take]
    omega

theorem text_stored (mem : Memory) (p : ℕ) {text : Str} {length : ℕ}
    (hfits : text.length < length) :
    Stored mem p length text length (put mem p (text ++ [0])) := by
  have hlength : (text ++ [0]).length = text.length + 1 := List.length_append
  refine ⟨by omega, le_rfl, ?_, ?_, hfits⟩
  · intro a ha
    exact put_outside (by omega)
  · intro m hm i hi
    have hvalue : (text ++ [0]).getD i 0 = text.getD i 0 := by
      by_cases hin : i < text.length
      · exact List.getD_append _ _ _ _ hin
      · obtain rfl : i = text.length := by omega
        rw [List.getD_append_right _ _ _ _ le_rfl, Nat.sub_self, List.getD_eq_default _ _ le_rfl]
        rfl
    by_cases hlast : p + i = p + length - 1
    · have hend : text.getD i 0 = 0 := List.getD_eq_default _ _ (by omega)
      rw [hlast, Function.update_self, hend]
    · rw [Function.update_of_ne hlast, hm _ (by omega) (by omega), put_inside (by omega), hvalue]

theorem strstr_le {s wanted : Str} {j : ℕ} (h : wanted <+: s.drop j) (hj : j ≤ s.length) :
    ∃ i ≤ j, strstr s wanted = some i := by
  induction s generalizing j with
  | nil =>
    obtain rfl : j = 0 := by simpa using hj
    rw [List.drop_nil, List.prefix_nil] at h
    exact ⟨0, le_rfl, if_pos h⟩
  | cons c s ih =>
    rw [strstr]
    by_cases hhere : wanted <+: c :: s
    · exact ⟨0, Nat.zero_le _, if_pos hhere⟩
    · rw [if_neg hhere]
      cases j with
      | zero => exact absurd h hhere
      | succ j =>
        rw [List.drop_succ_cons] at h
        obtain ⟨i, hi, hstrstr⟩ := ih h (by simpa using hj)
        refine ⟨i + 1, by omega, ?_⟩
        rw [hstrstr]
        rfl

theorem dot_eq_some {h_name domain : Str} {k : ℕ} (h : dot h_name domain = some k) :
    strstr h_name domain = some (k + 1) ∧ h_name[k]? = some DOT := by
  rw [dot] at h
  split at h
  · rename_i j hstrstr
    split_ifs at h with hdot
    cases h
    exact ⟨hstrstr, hdot⟩
  · exact absurd h (by simp)

theorem short_eq_take {h_name domain : Str} {k : ℕ} (h : dot h_name domain = some k) :
    ∃ m, k ≤ m ∧ m ≤ h_name.length ∧ short h_name domain = h_name.take m := by
  obtain ⟨hstrstr, hdot⟩ := dot_eq_some h
  obtain ⟨hk, -⟩ := List.getElem?_eq_some_iff.mp hdot
  rw [short]
  split_ifs with hend
  · obtain ⟨front, rfl⟩ := hend
    rw [List.length_append, List.length_cons, Nat.add_sub_cancel]
    have hdrop : domain <+: (front ++ DOT :: domain).drop (front.length + 1) := by
      rw [List.drop_length_add_append, List.drop_succ_cons, List.drop_zero]
    obtain ⟨i, hi, hi'⟩ := strstr_le hdrop (by simp)
    rw [hi', Option.some.injEq] at hstrstr
    exact ⟨front.length, by omega, by omega, rfl⟩
  · exact ⟨h_name.length, hk.le, le_rfl, List.take_length.symm⟩

theorem wantedName_of_cut {c : Call} {h_name : Str} {k : ℕ} (h : c.cut h_name = some k) :
    h_name[k]? = some DOT ∧
      ∃ m, k ≤ m ∧ m ≤ h_name.length ∧ c.wantedName h_name = h_name.take m := by
  rw [Call.cut] at h
  split_ifs at h with hflag
  obtain ⟨domain, hdomain, hdot⟩ := Option.bind_eq_some_iff.mp h
  refine ⟨(dot_eq_some hdot).2, ?_⟩
  rw [Call.wantedName, if_pos hflag, hdomain]
  exact short_eq_take hdot

def Call.Fits (c : Call) (h_name : Str) (hostlen : ℕ) : Prop :=
  match c.cut h_name with
  | some k => hostlen ≤ k
  | none => ∀ domain, (if c.has NI_NOFQDN then c.domain else none) = some domain →
      DOT :: domain.1 <:+ h_name → hostlen ≤ h_name.length - domain.1.length

theorem wantedName_of_fits {c : Call} {h_name : Str} {hostlen : ℕ} (hpos : 0 < hostlen)
    (h : c.Fits h_name hostlen) :
    (c.wantedName h_name).take (hostlen - 1) = h_name.take (hostlen - 1) := by
  rw [Call.Fits] at h
  cases hcut : c.cut h_name with
  | some k =>
    rw [hcut] at h
    obtain ⟨-, m, hk, -, hwanted⟩ := wantedName_of_cut hcut
    simp only at h
    rw [hwanted, List.take_take, min_eq_left (by omega)]
  | none =>
    rw [hcut] at h
    rw [Call.wantedName]
    cases hdomain : (if c.has NI_NOFQDN then c.domain else none) with
    | none => rfl
    | some domain =>
      simp only
      rw [short]
      split_ifs with hend
      · have hle := h domain hdomain hend
        have hlength := hend.length_le
        rw [List.length_cons] at hlength
        rw [List.take_take, min_eq_left (by omega)]
      · rfl

def Call.InetFits (c : Call) (hostlen : ℕ) : Prop :=
  match if c.has NI_NUMERICHOST then none else c.h_name with
  | some h_name => c.Fits h_name.1 hostlen
  | none => c.has NI_NAMEREQD = false → ∀ text, c.text = some text → text.1.length ≠ hostlen

def Settled (mem : Memory) (p length : ℕ) (s : Str)
    (part : Option (Except ℤ (ℕ × Memory))) : Prop :=
  (∃ code, part = some (.error code) ∧ code ≠ 0) ∨
    ∃ n mem', part = some (.ok (n, mem')) ∧ Stored mem p length s n mem'

theorem copy_settled (mem : Memory) (p : ℕ) (s : CStr) {length : ℕ} (hpos : 0 < length)
    (hsmall : length < 2 ^ 31) :
    Settled mem p length (s.1.take (length - 1)) (copy mem p s length) := by
  obtain ⟨mem', hcopy, hstored⟩ := copy_stored mem p s hpos le_rfl hsmall
  exact Or.inr ⟨length, mem', hcopy, hstored⟩

theorem inetHost_settled {c : Call} {hostlen : ℕ} (p : ℕ) (mem : Memory) (hpos : 0 < hostlen)
    (hsmall : hostlen < 2 ^ 31) (h : c.InetFits hostlen) :
    Settled mem p hostlen (c.wantedInet.take (hostlen - 1)) (inetHost c hostlen p mem) := by
  rw [Call.InetFits] at h
  rw [inetHost, Call.wantedInet]
  cases hlookup : (if c.has NI_NUMERICHOST then none else c.h_name) with
  | some h_name =>
    rw [hlookup] at h
    simp only at h ⊢
    rw [wantedName_of_fits hpos h]
    rw [Call.Fits] at h
    cases hcut : c.cut h_name.1 with
    | some k =>
      rw [hcut] at h
      simp only at h ⊢
      rw [min_eq_left h]
      exact copy_settled mem p h_name hpos hsmall
    | none => exact copy_settled mem p h_name hpos hsmall
  | none =>
    rw [hlookup] at h
    simp only at h ⊢
    by_cases hreqd : c.has NI_NAMEREQD = true
    · rw [if_pos hreqd]
      exact Or.inl ⟨EAI_NONAME, rfl, by decide⟩
    rw [if_neg hreqd]
    cases htext : c.text with
    | none => exact Or.inl ⟨EAI_SYSTEM, rfl, by decide⟩
    | some text =>
      have hne := h (by simpa using hreqd) text htext
      simp only [Option.elim_some, inetNtop]
      by_cases hlong : hostlen < text.1.length
      · rw [if_pos hlong]
        exact Or.inl ⟨EAI_SYSTEM, rfl, by decide⟩
      · rw [if_neg hlong, List.take_of_length_le (by omega)]
        exact Or.inr ⟨hostlen, _, rfl, text_stored mem p (by omega)⟩

theorem hostPart_settled {c : Call} {family : Family} {hostlen : ℕ} (p : ℕ) (mem : Memory)
    (hpos : 0 < hostlen) (hsmall : hostlen < 2 ^ 31)
    (h : family = .AF_INET ∨ family = .AF_INET6 → c.InetFits hostlen) :
    Settled mem p hostlen ((c.wantedHost family).take (hostlen - 1))
      (hostPart c family hostlen p mem) := by
  cases family with
  | AF_LOCAL =>
    rw [hostPart, Call.wantedHost]
    cases (if c.has NI_NUMERICHOST then none else c.nodename) with
    | some nodename => exact copy_settled mem p nodename hpos hsmall
    | none =>
      simp only [Option.getD_none]
      by_cases hreqd : c.has NI_NAMEREQD = true
      · rw [if_pos hreqd]
        exact Or.inl ⟨EAI_NONAME, rfl, by decide⟩
      · rw [if_neg hreqd]
        exact copy_settled mem p localhost hpos hsmall
  | AF_INET => exact inetHost_settled p mem hpos hsmall (h (Or.inl rfl))
  | AF_INET6 => exact inetHost_settled p mem hpos hsmall (h (Or.inr rfl))
  | other => exact Or.inl ⟨EAI_FAMILY, rfl, by decide⟩

def Call.Overflows (c : Call) (family : Family) (servlen : ℕ) : Prop :=
  family ≠ .AF_LOCAL ∧
    (if c.has NI_NUMERICSERV then none else c.s_name (c.has NI_DGRAM)) = none ∧
    servlen ≤ (decimal c.port).length

theorem servPart_overflows {c : Call} {family : Family} {servlen : ℕ} (q : ℕ) (mem : Memory)
    (h : c.Overflows family servlen) :
    servPart c family servlen q mem = some (.error EAI_OVERFLOW) := by
  obtain ⟨hfamily, hname, hlong⟩ := h
  rw [servPart, if_neg hfamily, inetServ, hname]
  exact if_pos hlong

theorem servPart_stored {c : Call} {family : Family} {servlen : ℕ} (q : ℕ) (mem : Memory)
    (hpos : 0 < servlen) (hsmall : servlen < 2 ^ 31) (h : ¬ c.Overflows family servlen) :
    ∃ n mem', servPart c family servlen q mem = some (.ok (n, mem')) ∧
      Stored mem q servlen ((c.wantedServ family).take (servlen - 1)) n mem' := by
  rw [servPart, Call.wantedServ]
  by_cases hlocal : family = .AF_LOCAL
  · rw [if_pos hlocal, if_pos hlocal]
    obtain ⟨mem', hcopy, hstored⟩ := copy_stored mem q c.sun_path hpos le_rfl hsmall
    exact ⟨servlen, mem', hcopy, hstored⟩
  rw [if_neg hlocal, if_neg hlocal, inetServ, Call.wantedInetServ]
  cases hname : (if c.has NI_NUMERICSERV then none else c.s_name (c.has NI_DGRAM)) with
  | some s_name =>
    obtain ⟨mem', hcopy, hstored⟩ := copy_stored mem q s_name hpos le_rfl hsmall
    exact ⟨servlen, mem', hcopy, hstored⟩
  | none =>
    have hshort : ¬ servlen ≤ (decimal c.port).length := fun hlong => h ⟨hlocal, hname, hlong⟩
    simp only
    rw [if_neg hshort, List.take_of_length_le (by omega)]
    exact ⟨servlen, _, rfl, text_stored mem q (by omega)⟩

/-- A part has stored a string in a buffer, or there is no buffer. -/
structure Done (buffer : Option Buffer) (mem : Memory) (p : ℕ) (wanted : Str) (n : ℕ)
    (mem' : Memory) : Prop where
  stored : ∀ b, buffer = some b → 0 < b.length →
    Stored mem p b.length (wanted.take (b.length - 1)) n mem'
  skipped : (∀ b, buffer = some b → ¬ 0 < b.length) → n = 0 ∧ mem' = mem

theorem done_of_stored {b : Buffer} {mem mem' : Memory} {p n : ℕ} {wanted : Str}
    (hpos : 0 < b.length) (h : Stored mem p b.length (wanted.take (b.length - 1)) n mem') :
    Done (some b) mem p wanted n mem' := by
  refine ⟨?_, fun hnone => absurd hpos (hnone b rfl)⟩
  rintro b' hb' -
  rw [← Option.some.inj hb']
  exact h

theorem ifGiven_cases (buffer : Option Buffer) (mem : Memory)
    (part : ℕ → Memory → Option (Except ℤ (ℕ × Memory))) :
    (∃ b, buffer = some b ∧ 0 < b.length ∧ ifGiven buffer mem part = part b.length mem) ∨
      (ifGiven buffer mem part = some (.ok (0, mem)) ∧
        ∀ p wanted, Done buffer mem p wanted 0 mem) := by
  cases buffer with
  | none =>
    exact Or.inr ⟨rfl, fun p wanted => ⟨fun b hb => absurd hb (by simp), fun _ => ⟨rfl, rfl⟩⟩⟩
  | some b =>
    rw [ifGiven]
    by_cases hpos : 0 < b.length
    · exact Or.inl ⟨b, rfl, hpos, if_pos hpos⟩
    · refine Or.inr ⟨if_neg hpos, fun p wanted => ⟨?_, fun _ => ⟨rfl, rfl⟩⟩⟩
      rintro b' hb' hpos'
      rw [← Option.some.inj hb'] at hpos'
      exact absurd hpos' hpos

section Done

variable {buffer : Option Buffer} {mem mem' : Memory} {p n a : ℕ} {wanted : Str}

theorem buffer_cases (buffer : Option Buffer) :
    (∃ b, buffer = some b ∧ 0 < b.length) ∨ ∀ b, buffer = some b → ¬ 0 < b.length := by
  by_cases h : ∃ b, buffer = some b ∧ 0 < b.length
  · exact Or.inl h
  · exact Or.inr fun b hb hpos => h ⟨b, hb, hpos⟩

theorem Done.frame (h : Done buffer mem p wanted n mem') (ha : ¬ Inside buffer p a) :
    mem' a = mem a := by
  rcases buffer_cases buffer with ⟨b, hb, hpos⟩ | hnone
  · apply (h.stored b hb hpos).frame a
    by_contra hin
    exact ha ⟨b, hb, by omega, by omega⟩
  · rw [(h.skipped hnone).2]

theorem Done.terminate (h : Done buffer mem p wanted n mem') (ha : ¬ Inside buffer p a)
    (m : Memory) : terminate m p n a = m a := by
  rw [Getnameinfo.terminate]
  rcases buffer_cases buffer with ⟨b, hb, hpos⟩ | hnone
  · have hstored := h.stored b hb hpos
    have hn := hstored.pos
    have hle := hstored.le
    rw [if_pos hn]
    apply Function.update_of_ne
    rintro rfl
    exact ha ⟨b, hb, by omega, by omega⟩
  · rw [if_neg (by rw [(h.skipped hnone).1]; exact lt_irrefl 0)]

theorem Done.holds (h : Done buffer mem p wanted n mem') {b : Buffer} (hb : buffer = some b)
    (hpos : 0 < b.length) {m : Memory} (hm : ∀ a, Inside buffer p a → m a = mem' a) :
    Holds (Getnameinfo.terminate m p n) p (wanted.take (b.length - 1)) := by
  have hstored := h.stored b hb hpos
  rw [Getnameinfo.terminate, if_pos hstored.pos]
  exact hstored.holds m fun a hlow hhigh => hm a ⟨b, hb, hlow, hhigh⟩

end Done

theorem holds_congr {m m' : Memory} {p : ℕ} {s : Str}
    (h : ∀ a, p ≤ a → a ≤ p + s.length → m' a = m a) (hholds : Holds m p s) : Holds m' p s := by
  intro i hi
  rw [h _ (by omega) (by omega)]
  exact hholds i hi

theorem good_of_done {c : Call} {family : Family} {p q n n' : ℕ} {mem mem₁ mem₂ : Memory}
    (hapart : Apart c p q) (hhost : Done c.host mem p (c.wantedHost family) n mem₁)
    (hserv : Done c.serv mem₁ q (c.wantedServ family) n' mem₂) :
    Good c family p q mem (terminate (terminate mem₂ p n) q n') := by
  have hnotserv : ∀ a, Inside c.host p a → ¬ Inside c.serv q a := fun a h h' => hapart a ⟨h, h'⟩
  refine ⟨?_, ?_, ?_⟩
  · intro b hb hpos
    have hholds := hhost.holds hb hpos (m := mem₂) fun a ha => hserv.frame (hnotserv a ha)
    have hfits := (hhost.stored b hb hpos).fits
    refine holds_congr ?_ hholds
    intro a hlow hhigh
    exact hserv.terminate (hnotserv a ⟨b, hb, hlow, by omega⟩) _
  · intro b hb hpos
    apply hserv.holds hb hpos
    intro a ha
    exact hhost.terminate (fun h => hapart a ⟨h, ha⟩) _
  · intro a hahost haserv
    rw [hserv.terminate haserv, hhost.terminate hahost, hserv.frame haserv, hhost.frame hahost]

def Call.Admitted (c : Call) (family : Family) : Prop :=
  c.flags &&& ~~~(NI_NUMERICHOST ||| NI_NUMERICSERV ||| NI_NOFQDN ||| NI_NAMEREQD |||
    NI_DGRAM) = 0 ∧ c.sa = some family ∧
  ¬ (c.addrlen < 2 ∨ c.addrlen < family.size ∨ family = .other)

def Call.Fine (c : Call) : Prop :=
  ∀ family, c.Admitted family → family = .AF_INET ∨ family = .AF_INET6 →
    (∀ b, c.serv = some b → 0 < b.length → ¬ c.Overflows family b.length) →
    ∀ b, c.host = some b → 0 < b.length → c.InetFits b.length

theorem hostPart_total (c : Call) (family : Family) {hostlen : ℕ} (p : ℕ) (mem : Memory)
    (hsmall : hostlen < 2 ^ 31) :
    (∃ code, hostPart c family hostlen p mem = some (.error code) ∧ code ≠ 0) ∨
      ∃ n mem', hostPart c family hostlen p mem = some (.ok (n, mem')) := by
  have hinet : (∃ code, inetHost c hostlen p mem = some (.error code) ∧ code ≠ 0) ∨
      ∃ n mem', inetHost c hostlen p mem = some (.ok (n, mem')) := by
    rw [inetHost]
    cases (if c.has NI_NUMERICHOST then none else c.h_name) with
    | some h_name =>
      simp only
      cases c.cut h_name.1 with
      | some k => exact Or.inr ⟨_, _, copy_total mem p h_name (by omega)⟩
      | none => exact Or.inr ⟨_, _, copy_total mem p h_name hsmall⟩
    | none =>
      simp only
      by_cases hreqd : c.has NI_NAMEREQD = true
      · rw [if_pos hreqd]
        exact Or.inl ⟨EAI_NONAME, rfl, by decide⟩
      · rw [if_neg hreqd]
        cases inetNtop c.text mem p hostlen with
        | none => exact Or.inl ⟨EAI_SYSTEM, rfl, by decide⟩
        | some mem' => exact Or.inr ⟨hostlen, mem', rfl⟩
  cases family with
  | AF_LOCAL =>
    rw [hostPart]
    cases (if c.has NI_NUMERICHOST then none else c.nodename) with
    | some nodename => exact Or.inr ⟨_, _, copy_total mem p nodename hsmall⟩
    | none =>
      simp only
      by_cases hreqd : c.has NI_NAMEREQD = true
      · rw [if_pos hreqd]
        exact Or.inl ⟨EAI_NONAME, rfl, by decide⟩
      · rw [if_neg hreqd]
        exact Or.inr ⟨_, _, copy_total mem p localhost hsmall⟩
  | AF_INET => exact hinet
  | AF_INET6 => exact hinet
  | other => exact Or.inl ⟨EAI_FAMILY, rfl, by decide⟩

theorem getnameinfo_admitted {c : Call} {family : Family} (h : c.Admitted family) (p q : ℕ)
    (mem : Memory) :
    getnameinfo c p q mem =
      match ifGiven c.host mem fun hostlen mem => hostPart c family hostlen p mem with
      | none => none
      | some (.error code) => some (code, mem)
      | some (.ok (hostlen, mem)) =>
        match ifGiven c.serv mem fun servlen mem => servPart c family servlen q mem with
        | none => none
        | some (.error code) => some (code, mem)
        | some (.ok (servlen, mem)) =>
          some (0, terminate (terminate mem p hostlen) q servlen) := by
  obtain ⟨hflags, hsa, hlen⟩ := h
  rw [getnameinfo, if_neg (by rw [hflags]; exact fun hne => hne rfl), hsa]
  simp only
  rw [if_neg hlen]

theorem getnameinfo_refused {c : Call} (h : ∀ family, ¬ c.Admitted family) (p q : ℕ)
    (mem : Memory) : ∃ ret, getnameinfo c p q mem = some (ret, mem) ∧ ret ≠ 0 := by
  rw [getnameinfo]
  split_ifs with hflags
  · exact ⟨EAI_BADFLAGS, rfl, by decide⟩
  · cases hsa : c.sa with
    | none => exact ⟨EAI_FAMILY, rfl, by decide⟩
    | some family =>
      simp only
      split_ifs with hlen
      · exact ⟨EAI_FAMILY, rfl, by decide⟩
      · exact absurd ⟨not_ne_iff.mp hflags, hsa, hlen⟩ (h family)

theorem serv_done {c : Call} {family : Family} (q : ℕ) (mem : Memory)
    (hover : ∀ b, c.serv = some b → 0 < b.length → ¬ c.Overflows family b.length) :
    ∃ n mem', (ifGiven c.serv mem fun servlen mem => servPart c family servlen q mem) =
      some (.ok (n, mem')) ∧ Done c.serv mem q (c.wantedServ family) n mem' := by
  rcases ifGiven_cases c.serv mem fun servlen mem => servPart c family servlen q mem with
    ⟨b, hb, hpos, hgiven⟩ | ⟨hgiven, hdone⟩
  · obtain ⟨n, mem', hpart, hstored⟩ := servPart_stored q mem hpos b.small (hover b hb hpos)
    refine ⟨n, mem', hgiven.trans hpart, ?_⟩
    rw [hb]
    exact done_of_stored hpos hstored
  · exact ⟨0, mem, hgiven, hdone q _⟩

theorem stores_of_fine {c : Call} (h : c.Fine) : c.Stores := by
  intro p q mem hapart
  -- a call that is refused stores nothing that counts
  by_cases hadmitted : ∃ family, c.Admitted family
  swap
  · obtain ⟨ret, hrun, hret⟩ := getnameinfo_refused (not_exists.mp hadmitted) p q mem
    exact ⟨ret, mem, hrun, fun hzero => absurd hzero hret⟩
  obtain ⟨family, hadmitted⟩ := hadmitted
  rw [getnameinfo_admitted hadmitted]
  -- the service fits, or it is said not to
  by_cases hover : ∀ b, c.serv = some b → 0 < b.length → ¬ c.Overflows family b.length
  · have hhost : (∃ code, (ifGiven c.host mem fun hostlen mem => hostPart c family hostlen p mem) =
          some (.error code) ∧ code ≠ 0) ∨
        ∃ n mem', (ifGiven c.host mem fun hostlen mem => hostPart c family hostlen p mem) =
          some (.ok (n, mem')) ∧ Done c.host mem p (c.wantedHost family) n mem' := by
      rcases ifGiven_cases c.host mem fun hostlen mem => hostPart c family hostlen p mem with
        ⟨b, hb, hpos, hgiven⟩ | ⟨hgiven, hdone⟩
      · rw [hgiven]
        have hfits : family = .AF_INET ∨ family = .AF_INET6 → c.InetFits b.length :=
          fun hinet => h family hadmitted hinet hover b hb hpos
        rcases hostPart_settled p mem hpos b.small hfits with herror | ⟨n, mem', hpart, hstored⟩
        · exact Or.inl herror
        · refine Or.inr ⟨n, mem', hpart, ?_⟩
          rw [hb]
          exact done_of_stored hpos hstored
      · exact Or.inr ⟨0, mem, hgiven, hdone p _⟩
    rcases hhost with ⟨code, hcode, hne⟩ | ⟨n, mem₁, hhost, hdone₁⟩
    · rw [hcode]
      exact ⟨code, mem, rfl, fun hzero => absurd hzero hne⟩
    · obtain ⟨n', mem₂, hserv, hdone₂⟩ := serv_done q mem₁ hover
      rw [hhost]
      simp only
      rw [hserv]
      exact ⟨0, _, rfl, fun _ => ⟨family, hadmitted.2.1, good_of_done hapart hdone₁ hdone₂⟩⟩
  · push Not at hover
    obtain ⟨bs, hbs, hbspos, hoverflows⟩ := hover
    have hserv : ∀ mem, (ifGiven c.serv mem fun servlen mem => servPart c family servlen q mem) =
        some (.error EAI_OVERFLOW) := by
      intro mem
      rw [hbs, ifGiven, if_pos hbspos]
      exact servPart_overflows q mem hoverflows
    have hcode : EAI_OVERFLOW ≠ 0 := by decide
    rcases ifGiven_cases c.host mem fun hostlen mem => hostPart c family hostlen p mem with
      ⟨b, hb, hpos, hgiven⟩ | ⟨hgiven, -⟩
    · rw [hgiven]
      rcases hostPart_total c family p mem b.small with ⟨code, hpart, hne⟩ | ⟨n, mem₁, hpart⟩
      · rw [hpart]
        exact ⟨code, mem, rfl, fun hzero => absurd hzero hne⟩
      · rw [hpart]
        simp only
        rw [hserv]
        exact ⟨EAI_OVERFLOW, mem₁, rfl, fun hzero => absurd hzero hcode⟩
    · rw [hgiven]
      simp only
      rw [hserv]
      exact ⟨EAI_OVERFLOW, mem, rfl, fun hzero => absurd hzero hcode⟩

/-- The host's part of a call that stores what it is to store, with the service's buffer behind it
and ones in memory: the bytes of the host's buffer and the one behind it. -/
theorem host_of_stores {c : Call} {family : Family} (h : c.Stores) (hadmitted : c.Admitted family)
    (hover : ∀ b, c.serv = some b → 0 < b.length → ¬ c.Overflows family b.length) {b : Buffer}
    (hb : c.host = some b) (hpos : 0 < b.length) {n : ℕ} {mem₁ : Memory}
    (hpart : hostPart c family b.length 0 (fun _ => 1) = some (.ok (n, mem₁))) :
    ∃ mem' : Memory, (∀ a, a ≤ b.length → mem' a = terminate mem₁ 0 n a) ∧
      Holds mem' 0 ((c.wantedHost family).take (b.length - 1)) ∧ mem' b.length = 1 := by
  have hserv : ∀ a, a ≤ b.length → ¬ Inside c.serv (b.length + 1) a := by
    rintro a ha ⟨bs, -, hlow, -⟩
    omega
  have hhost : ¬ Inside c.host 0 b.length := by
    rintro ⟨b', hb', -, hhigh⟩
    rw [hb] at hb'
    rw [Option.some.inj hb'] at hhigh
    omega
  have hapart : Apart c 0 (b.length + 1) := by
    rintro a ⟨⟨b', hb', -, hhigh⟩, hin⟩
    rw [hb] at hb'
    rw [← Option.some.inj hb'] at hhigh
    exact hserv a (by omega) hin
  obtain ⟨n', mem₂, hgiven, hdone⟩ := serv_done (b.length + 1) mem₁ hover
  obtain ⟨ret, mem', hrun, hgood⟩ := h 0 (b.length + 1) (fun _ => 1) hapart
  rw [getnameinfo_admitted hadmitted, hb, ifGiven, if_pos hpos, hpart] at hrun
  simp only at hrun
  rw [hgiven] at hrun
  cases hrun
  obtain ⟨family', hfamily', hgood⟩ := hgood rfl
  obtain rfl : family' = family := by
    rw [hadmitted.2.1] at hfamily'
    exact (Option.some.inj hfamily').symm
  refine ⟨_, ?_, hgood.host b hb hpos, hgood.frame b.length hhost (hserv _ le_rfl)⟩
  intro a ha
  rw [hdone.terminate (hserv a ha), terminate, terminate]
  split_ifs with hn
  · by_cases hlast : a = 0 + n - 1
    · rw [hlast, Function.update_self, Function.update_self]
    · rw [Function.update_of_ne hlast, Function.update_of_ne hlast, hdone.frame (hserv a ha)]
  · exact hdone.frame (hserv a ha)

theorem holds_unique {m : Memory} {p : ℕ} {s t : Str} (hs : (0 : UInt8) ∉ s) (ht : (0 : UInt8) ∉ t)
    (hholds : Holds m p s) (hholds' : Holds m p t) : s.length = t.length := by
  have hne : ∀ {u : Str} {i : ℕ}, (0 : UInt8) ∉ u → i < u.length → u.getD i 0 ≠ 0 := by
    intro u i hu hi hzero
    rw [List.getD_eq_getElem _ _ hi] at hzero
    exact hu (hzero ▸ List.getElem_mem hi)
  rcases Nat.lt_trichotomy s.length t.length with hlt | heq | hgt
  · have h := hholds s.length le_rfl
    rw [hholds' s.length (by omega), List.getD_eq_default _ _ le_rfl] at h
    exact absurd h (hne ht hlt)
  · exact heq
  · have h := hholds' t.length le_rfl
    rw [hholds t.length (by omega), List.getD_eq_default _ _ le_rfl] at h
    exact absurd h (hne hs hgt)

theorem not_mem_take {s : Str} (hs : (0 : UInt8) ∉ s) (n : ℕ) : (0 : UInt8) ∉ s.take n :=
  fun h => hs (List.mem_of_mem_take h)

theorem holds_of_copy {b : Buffer} {h_name : CStr} {n : ℕ} {mem₁ mem' : Memory} (hn : 0 < n)
    (hle : n ≤ b.length) (hcopy : copy (fun _ => 1) 0 h_name n = some (.ok (n, mem₁)))
    (hmem' : ∀ a, a ≤ b.length → mem' a = terminate mem₁ 0 n a) :
    Holds mem' 0 (h_name.1.take (n - 1)) := by
  obtain ⟨mem₂, hcopy', hstored⟩ := copy_stored (fun _ => 1) 0 h_name hn hle b.small
  rw [hcopy] at hcopy'
  cases hcopy'
  refine holds_congr ?_ (hstored.holds mem₁ fun a _ _ => rfl)
  intro a _ ha
  have hfits := hstored.fits
  rw [hmem' a (by omega), terminate, if_pos hn]

theorem fits_of_stores {c : Call} {family : Family} (h : c.Stores) (hadmitted : c.Admitted family)
    (hinet : family = .AF_INET ∨ family = .AF_INET6)
    (hover : ∀ b, c.serv = some b → 0 < b.length → ¬ c.Overflows family b.length) {b : Buffer}
    (hb : c.host = some b) (hpos : 0 < b.length) {h_name : CStr}
    (hlookup : (if c.has NI_NUMERICHOST then none else c.h_name) = some h_name) :
    c.Fits h_name.1 b.length := by
  have hsmall := b.small
  have hpart : ∀ mem, hostPart c family b.length 0 mem =
      match c.cut h_name.1 with
      | some k => copy mem 0 h_name (min b.length k)
      | none => copy mem 0 h_name b.length := by
    intro mem
    have hpart : hostPart c family b.length 0 mem = inetHost c b.length 0 mem := by
      rcases hinet with rfl | rfl <;> rfl
    rw [hpart, inetHost, hlookup]
  have hwanted : c.wantedHost family = c.wantedName h_name.1 := by
    have hwanted : c.wantedHost family = c.wantedInet := by rcases hinet with rfl | rfl <;> rfl
    rw [hwanted, Call.wantedInet, hlookup]
  rw [Call.Fits]
  cases hcut : c.cut h_name.1 with
  | some k =>
    simp only
    by_contra hlong
    obtain ⟨hdot, m, hk, hm, hname⟩ := wantedName_of_cut hcut
    have hcopy := copy_total (fun _ => 1) 0 h_name (show k < 2 ^ 31 by omega)
    have hpart' := hpart fun _ => 1
    rw [hcut] at hpart'
    simp only at hpart'
    rw [min_eq_right (by omega), hcopy] at hpart'
    obtain ⟨mem', hmem', hholds, -⟩ := host_of_stores h hadmitted hover hb hpos hpart'
    rw [hwanted, hname] at hholds
    have hlength : ((h_name.1.take m).take (b.length - 1)).length = min (b.length - 1) m := by
      rw [List.length_take, List.length_take, min_eq_left hm]
    by_cases hzero : k = 0
    · -- nothing is stored, not even a NUL
      have hend := hholds _ le_rfl
      rw [List.getD_eq_default _ _ le_rfl, hmem' _ (by omega), terminate, if_neg (by omega),
        put_outside (by rw [padded_length]; omega)] at hend
      exact absurd hend (by decide)
    · have hcut' := holds_of_copy (by omega) (by omega) hcopy hmem'
      have hlast := holds_unique (not_mem_take h_name.2 _)
        (not_mem_take (not_mem_take h_name.2 _) _) hcut' hholds
      rw [hlength, List.length_take] at hlast
      omega
  | none =>
    simp only
    intro domain hdomain hend
    by_contra hlong
    have hcopy := copy_total (fun _ => 1) 0 h_name hsmall
    have hpart' := hpart fun _ => 1
    rw [hcut] at hpart'
    simp only at hpart'
    rw [hcopy] at hpart'
    obtain ⟨mem', hmem', hholds, -⟩ := host_of_stores h hadmitted hover hb hpos hpart'
    have hfull := holds_of_copy hpos le_rfl hcopy hmem'
    rw [hwanted, Call.wantedName, hdomain] at hholds
    simp only at hholds
    rw [short, if_pos hend] at hholds
    have hlast := holds_unique (not_mem_take h_name.2 _) (not_mem_take (not_mem_take h_name.2 _) _)
      hfull hholds
    have hlength := hend.length_le
    rw [List.length_cons] at hlength
    rw [List.length_take, List.length_take, List.length_take] at hlast
    omega

theorem fine_of_stores {c : Call} (h : c.Stores) : c.Fine := by
  intro family hadmitted hinet hover b hb hpos
  rw [Call.InetFits]
  cases hlookup : (if c.has NI_NUMERICHOST then none else c.h_name) with
  | some h_name => exact fits_of_stores h hadmitted hinet hover hb hpos hlookup
  | none =>
    rintro hreqd text htext hlength
    -- the NUL of the number stands behind the buffer
    have hpart : hostPart c family b.length 0 (fun _ => 1) =
        some (.ok (b.length, put (fun _ => 1) 0 (text.1 ++ [0]))) := by
      have hpart : hostPart c family b.length 0 (fun _ => 1) =
          inetHost c b.length 0 (fun _ => 1) := by rcases hinet with rfl | rfl <;> rfl
      rw [hpart, inetHost, hlookup, htext]
      simp only [inetNtop]
      rw [if_neg (by rw [hreqd]; decide), if_neg (by omega)]
    obtain ⟨mem', hmem', -, hbehind⟩ := host_of_stores h hadmitted hover hb hpos hpart
    have hput : put (fun _ => 1) 0 (text.1 ++ [0]) (0 + b.length) = 0 := by
      rw [put_inside (by rw [List.length_append, List.length_singleton]; omega), ← hlength,
        List.getD_append_right _ _ _ _ le_rfl, Nat.sub_self]
      rfl
    rw [hmem' _ le_rfl, terminate, if_pos hpos, Function.update_of_ne (by omega)] at hbehind
    rw [Nat.zero_add] at hput
    rw [hput] at hbehind
    exact absurd hbehind (by decide)

/-- A call stores what it is to store exactly when the short name does not fit into the buffer
anyway, no name that is to be short goes unnoticed, and no number is as long as the buffer. -/
theorem names_stored_iff (c : Call) : c.Stores ↔ c.Fine :=
  ⟨fine_of_stores, stores_of_fine⟩

/-- `getnameinfo` with `NI_NOFQDN` for the host `ab.c` in the domain `c`. -/
def call : Call where
  sa := some .AF_INET
  addrlen := 16
  host := some ⟨32, by norm_num⟩
  serv := none
  flags := NI_NOFQDN
  port := 80
  sun_path := ⟨[], nil_clean⟩
  h_name := some ⟨[97, 98, 46, 99], by decide⟩
  domain := some ⟨[99], by decide⟩
  nodename := none
  text := none
  s_name := fun _ => none

/-- The last character of the short name is missing. -/
theorem short_name_is_cut :
    call.wantedHost .AF_INET = [97, 98] ∧
      ∃ mem', getnameinfo call 0 32 (fun _ => 1) = some (0, mem') ∧ Holds mem' 0 [97] := by
  have hadmitted : call.Admitted .AF_INET := ⟨by decide, rfl, by decide⟩
  have hhost : call.host = some ⟨32, by norm_num⟩ := rfl
  have hpart : hostPart call .AF_INET 32 0 (fun _ => 1) =
      copy (fun _ => 1) 0 ⟨[97, 98, 46, 99], by decide⟩ 2 := rfl
  obtain ⟨mem₁, hcopy, hstored⟩ := copy_stored (fun _ => 1) 0 ⟨[97, 98, 46, 99], by decide⟩
    (show 0 < 2 by decide) (show 2 ≤ 32 by decide) (by norm_num)
  refine ⟨by decide, _, ?_, hstored.holds mem₁ fun a _ _ => rfl⟩
  rw [getnameinfo_admitted hadmitted, hhost, ifGiven, if_pos (by decide), hpart, hcopy]
  rfl

end Mintlib.Getnameinfo
