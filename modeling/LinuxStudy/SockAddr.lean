import LinuxStudy.Bytes

/-!
# Socket addresses

An IPv4 address and a port, as a `sockaddr_in` holds them: both in network
order. The address is kept as its four bytes. The port is kept as the number
a little-endian host reads from its two bytes, which is not the port: that is
`ntohs` of it, the two bytes exchanged.

A program that names a peer by the text `ip:port` relies on two texts being
equal only for equal peers. They are (`ipPort_injective`), whichever way the
port is read, as long as both texts read it the same way.
-/

namespace Socket

/-- `in_addr`: the bytes in network order, as they stand in memory. -/
@[ext] structure InAddr where
  b₀ : UInt8
  b₁ : UInt8
  b₂ : UInt8
  b₃ : UInt8
  deriving DecidableEq

/-- **`sockaddr_in`** on a little-endian host. -/
structure SockAddr where
  /-- `sin_addr`. -/
  sinAddr : InAddr
  /-- `sin_port`, as the host reads it: the low byte is the first. -/
  sinPort : UInt16
  deriving DecidableEq

/-- `ntohs` on a little-endian host: the two bytes are exchanged. -/
def ntohs (p : UInt16) : UInt16 := UInt16.ofNat (256 * (p.toNat % 256) + p.toNat / 256)

theorem toNat_ntohs (p : UInt16) :
    (ntohs p).toNat = 256 * (p.toNat % 256) + p.toNat / 256 := by
  have hp : p.toNat < 65536 := p.toNat_lt
  unfold ntohs
  exact UInt16.toNat_ofNat_of_lt' (show _ < 65536 by omega)

theorem ntohs_ntohs (p : UInt16) : ntohs (ntohs p) = p := by
  have hp : p.toNat < 65536 := p.toNat_lt
  refine UInt16.toNat_inj.mp ?_
  rw [toNat_ntohs, toNat_ntohs]
  omega

/-! ## Texts

The text of an address has no colon and the text of a port is made of digits, so
`ip:port` can be taken apart in one way only, and two peers with one text are the
same peer. The four bytes are read back from the text of an address in the same
way, by the dots. -/

/-- `inet_ntoa`: the four bytes in decimal, with dots between them. -/
def inetNtoa (a : InAddr) : Bytes :=
  decimal a.b₀.toNat ++ 46 :: (decimal a.b₁.toNat ++ 46 ::
    (decimal a.b₂.toNat ++ 46 :: decimal a.b₃.toNat))

theorem dot_mem_inetNtoa (a : InAddr) : (46 : UInt8) ∈ inetNtoa a :=
  List.mem_append_right _ List.mem_cons_self

theorem colon_notMem_inetNtoa (a : InAddr) : (58 : UInt8) ∉ inetNtoa a := by
  have hdigits : ∀ n, (58 : UInt8) ∉ decimal n := notMem_decimal (by decide)
  unfold inetNtoa
  simp [hdigits]

theorem inetNtoa_ne_decimal (a : InAddr) (n : ℕ) : inetNtoa a ≠ decimal n := by
  intro h
  exact notMem_decimal (by decide) n (h ▸ dot_mem_inetNtoa a)

theorem toNat_decimal_injective {a b : UInt8} (h : decimal a.toNat = decimal b.toNat) : a = b :=
  UInt8.toNat_inj.mp (decimal_injective h)

/-- **An address is got back from its text.** -/
theorem inetNtoa_injective : Function.Injective inetNtoa := by
  intro a b h
  have hdot : ∀ n, (46 : UInt8) ∉ decimal n := notMem_decimal (by decide)
  obtain ⟨h₀, h⟩ := append_cons_cancel (hdot _) (hdot _) h
  obtain ⟨h₁, h⟩ := append_cons_cancel (hdot _) (hdot _) h
  obtain ⟨h₂, h₃⟩ := append_cons_cancel (hdot _) (hdot _) h
  exact InAddr.ext (toNat_decimal_injective h₀) (toNat_decimal_injective h₁)
    (toNat_decimal_injective h₂) (toNat_decimal_injective h₃)

/-- The text `ip:port`. -/
def ipPort (ip : Bytes) (port : ℕ) : Bytes := ip ++ str ":" ++ decimal port

/-- **A peer is got back from its text.** -/
theorem ipPort_injective {a b : InAddr} {m n : ℕ}
    (h : ipPort (inetNtoa a) m = ipPort (inetNtoa b) n) : a = b ∧ m = n := by
  have hcolon : str ":" = [58] := by decide +kernel
  unfold ipPort at h
  rw [hcolon, List.append_assoc, List.append_assoc] at h
  obtain ⟨hip, hport⟩ :=
    append_cons_cancel (colon_notMem_inetNtoa a) (colon_notMem_inetNtoa b) h
  exact ⟨inetNtoa_injective hip, decimal_injective hport⟩

end Socket
