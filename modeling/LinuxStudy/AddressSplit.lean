import LinuxStudy.MasterHandler
import LinuxStudy.SockAddr

/-!
# Taking an address apart

The programs send addresses about as the text `ip:port`, and each has its own
way of taking one apart. A cache server goes through the characters and
changes from the ip to the port at every colon. The client and the master cut
at the last colon. The second master, when it announces that it has taken
over, takes the first nine characters for the ip, and four characters from
position ten for the port.

The first three are right for every ip without a colon and every port. The
last is right exactly if the ip has nine characters and the port at most four
digits (`splittersAgree_iff`), as `127.0.0.1:8000` has: with a shorter ip it
takes the colon and digits of the port along, with a longer one it takes part
of the ip for the port, and of a port of five digits it takes four.
-/

namespace Dcs

open Socket

namespace AddressSplit

/-- The loop of `get_ipport`: which of the two the character goes to, and the
two so far. -/
def getIpportLoop : Bytes → Bool → Bytes → Bytes → Bytes × Bytes
  | [], _, ip, port => (ip, port)
  | c :: addr, ipOrder, ip, port =>
    if c = 58 then getIpportLoop addr (!ipOrder) ip port
    else if ipOrder then getIpportLoop addr ipOrder (ip ++ [c]) port
    else getIpportLoop addr ipOrder ip (port ++ [c])

/-- **`get_ipport`** of a cache server, undefined where `stoi` throws. -/
def getIpport (addr : Bytes) : Option (Bytes × ℤ) :=
  let r := getIpportLoop addr true [] []
  (stoi r.2).map (fun port => (r.1, port))

/-- **`GetIPList`** of the client, undefined where `stoi` throws. -/
def getIPList (cacheip : Bytes) : Option (Bytes × ℤ) :=
  let r := cutAtLast 58 cacheip
  (stoi r.2).map (fun port => (r.1, port))

/-- **`IPnow` and `Portnow`** of `masterstate`, the latter as the number the
connection is made to, undefined where `substr` throws. -/
def masterstate (addr : Bytes) : Option (Bytes × ℤ) :=
  (substr addr 0 9).bind (fun ipNow =>
    (substr addr 10 4).map (fun portNow => (ipNow, atoi portNow)))

/-! ## What they make of an address

An address is made as `main` makes it, an ip, a colon and the decimal text of a
port. The three that look for a colon need of the ip that it has none, and of the
port only that its text is made of digits, which a colon is not. `masterstate`
counts characters, so for it the lengths decide: what it takes for the ip is the
ip exactly if there are nine characters, and then the port begins at position ten,
of which it takes four digits.

A port is compared as a number and an ip as a text, since that is what they are
used for: the one goes to `htons`, the other to `inet_pton`. -/

variable {ip : Bytes} {port : ℕ}

theorem ipPort_eq (ip : Bytes) (port : ℕ) : ipPort ip port = ip ++ 58 :: decimal port := by
  have hcolon : str ":" = [58] := by decide +kernel
  unfold ipPort
  rw [hcolon, List.append_assoc]
  rfl

theorem colon_notMem_decimal (port : ℕ) : (58 : UInt8) ∉ decimal port :=
  notMem_decimal (by decide) port

/-- Characters that are no colon all go to one of the two. -/
theorem getIpportLoop_append {s : Bytes} (hs : (58 : UInt8) ∉ s) (rest : Bytes) (ipOrder : Bool)
    (ip port : Bytes) :
    getIpportLoop (s ++ rest) ipOrder ip port
      = if ipOrder then getIpportLoop rest ipOrder (ip ++ s) port
        else getIpportLoop rest ipOrder ip (port ++ s) := by
  induction s generalizing ip port with
  | nil => simp
  | cons c s ih =>
    rw [List.mem_cons, not_or] at hs
    rw [List.cons_append, getIpportLoop, if_neg (fun hc => hs.1 hc.symm)]
    cases ipOrder with
    | true => rw [if_pos rfl, ih hs.2, if_pos rfl, if_pos rfl, List.append_assoc]; rfl
    | false =>
      rw [if_neg Bool.false_ne_true, ih hs.2, if_neg Bool.false_ne_true,
        if_neg Bool.false_ne_true, List.append_assoc]
      rfl

/-- **`get_ipport` is right.** -/
theorem getIpport_ipPort (hip : (58 : UInt8) ∉ ip) (hport : port ≤ 65535) :
    getIpport (ipPort ip port) = some (ip, (port : ℤ)) := by
  have hloop : getIpportLoop (ipPort ip port) true [] [] = (ip, decimal port) := by
    have htext : decimal port = decimal port ++ [] := (List.append_nil _).symm
    rw [ipPort_eq, getIpportLoop_append hip, if_pos rfl, getIpportLoop, if_pos rfl, htext,
      getIpportLoop_append (colon_notMem_decimal port)]
    simp [getIpportLoop]
  unfold getIpport
  rw [hloop]
  show (stoi (decimal port)).map _ = _
  rw [stoi_decimal (by omega)]
  rfl

theorem cutAtLast_ipPort (ip : Bytes) (port : ℕ) :
    cutAtLast 58 (ipPort ip port) = (ip, decimal port) := by
  rw [ipPort_eq, cutAtLast_append_cons (colon_notMem_decimal port)]

/-- **`GetIPList` is right.** -/
theorem getIPList_ipPort (ip : Bytes) (hport : port ≤ 65535) :
    getIPList (ipPort ip port) = some (ip, (port : ℤ)) := by
  unfold getIPList
  rw [cutAtLast_ipPort]
  show (stoi (decimal port)).map _ = _
  rw [stoi_decimal (by omega)]
  rfl

/-- The first nine characters are the ip exactly if it has nine. -/
theorem take_nine_eq_iff (ip : Bytes) (port : ℕ) :
    (ipPort ip port).take 9 = ip ↔ ip.length = 9 := by
  rw [ipPort_eq]
  constructor
  · intro h
    have hlen := congrArg List.length h
    have hdigits := List.length_pos_iff.mpr (decimal_ne_nil port)
    rw [List.length_take, List.length_append, List.length_cons] at hlen
    omega
  · intro h
    rw [← h, List.take_left]

/-- Four digits of a decimal text give the number exactly if it has no more. -/
theorem atoi_take_four_eq_iff (port : ℕ) :
    atoi ((decimal port).take 4) = port ↔ port < 10000 := by
  have hdigits : ∀ b ∈ (decimal port).take 4, isDigit b = true :=
    fun b hb => isDigit_of_mem_decimal (List.mem_of_mem_take hb)
  have hlen := length_decimal_le_iff (n := port) (show 0 < 4 by decide)
  constructor
  · intro h
    rw [(atoi_of_digits hdigits).1] at h
    have hlt := leadingNumber_lt hdigits
    rw [Int.natCast_inj.mp h] at hlt
    exact Nat.lt_of_lt_of_le hlt (Nat.pow_le_pow_right (by decide) (List.length_take_le _ _))
  · intro h
    rw [List.take_of_length_le (hlen.mpr h), atoi_decimal]

/-- After an ip of nine characters, what stands from position ten on is the
port. -/
theorem substr_ten {ip : Bytes} (hnine : ip.length = 9) (port : ℕ) :
    substr (ipPort ip port) 10 4 = some ((decimal port).take 4) := by
  have hlen : 10 ≤ (ip ++ 58 :: decimal port).length := by
    rw [List.length_append, List.length_cons, hnine]
    omega
  unfold substr
  rw [ipPort_eq, if_pos hlen, show (10 : ℕ) = ip.length + 1 by omega,
    List.drop_length_add_append]
  rfl

/-- **When `masterstate` is right**: for an ip of nine characters and a port of
at most four digits. -/
theorem masterstate_ipPort_iff (ip : Bytes) (port : ℕ) :
    masterstate (ipPort ip port) = some (ip, (port : ℤ))
      ↔ ip.length = 9 ∧ port < 10000 := by
  have hfirst : substr (ipPort ip port) 0 9 = some ((ipPort ip port).take 9) :=
    if_pos (Nat.zero_le _)
  unfold masterstate
  rw [hfirst, Option.bind_some]
  constructor
  · intro h
    obtain ⟨portNow, hsub, hpair⟩ := Option.map_eq_some_iff.mp h
    obtain ⟨hip, hnumber⟩ := Prod.mk.inj hpair
    have hnine := (take_nine_eq_iff ip port).mp hip
    obtain rfl := Option.some.inj ((substr_ten hnine port).symm.trans hsub)
    exact ⟨hnine, (atoi_take_four_eq_iff port).mp hnumber⟩
  · rintro ⟨hnine, hdigits⟩
    rw [substr_ten hnine, (take_nine_eq_iff ip port).mpr hnine, Option.map_some,
      (atoi_take_four_eq_iff port).mpr hdigits]

/-- **The four agree**: each gives the ip and the port the text was made
from. -/
def SplittersAgree (ip : Bytes) (port : ℕ) : Prop :=
  getIpport (ipPort ip port) = some (ip, (port : ℤ))
    ∧ getIPList (ipPort ip port) = some (ip, (port : ℤ))
    ∧ Master.cutAddress (ipPort ip port) = (ip, decimal port)
    ∧ masterstate (ipPort ip port) = some (ip, (port : ℤ))

/-- **When the four agree**: for every ip without a colon and every port, exactly
if the ip has nine characters and the port at most four digits. -/
theorem splittersAgree_iff (hip : (58 : UInt8) ∉ ip) (hport : port ≤ 65535) :
    SplittersAgree ip port ↔ ip.length = 9 ∧ port < 10000 := by
  unfold SplittersAgree
  rw [masterstate_ipPort_iff]
  exact and_iff_right (getIpport_ipPort hip hport) |>.trans
    (and_iff_right (getIPList_ipPort ip hport) |>.trans (and_iff_right (cutAtLast_ipPort ip port)))

/-- The address of a test. -/
theorem splittersAgree_iff_local : SplittersAgree (str "127.0.0.1") 8000 :=
  (splittersAgree_iff (by decide +kernel) (by decide)).mpr (by decide +kernel)

/-- **An ip of another length**: of `10.0.0.1:8000` the second master takes
`10.0.0.1:` for the ip. -/
theorem not_splittersAgree_short_ip :
    ¬ ∀ (ip : Bytes) (port : ℕ), (58 : UInt8) ∉ ip → port ≤ 65535 → SplittersAgree ip port := by
  intro h
  obtain ⟨-, -, -, hstate⟩ := h (str "10.0.0.1") 8000 (by decide +kernel) (by decide)
  exact absurd hstate (by decide +kernel)

end AddressSplit

end Dcs
