import LinuxStudy.FirstSeen
import LinuxStudy.MiniRegistry

/-!
# The registry of the small cache server

The manager of the cache server has a copy of the master's registry, from
which nothing is deleted: a heartbeat adds its address, its port and its text
to three vectors, if the text is not a key of the map. The text is that of the
address followed by that of the port, and unlike the master's it has nothing
between them. So two machines may have one text: `10.0.0.1` with port `17001`
and `10.0.0.11` with port `7001` are both `10.0.0.117001`. The second of them
is taken for the first, and is not registered.

What is registered are the first with each text (`Lists`), and those are the
different pairs of an address and a port, in the order in which they first
appear, exactly if no two different ones of the sequence have one text
(`lists_distinct_iff`).
-/

namespace MiniDcs

open Socket FirstSeen

namespace CacheRegistry

open Registry

/-- `ipPortStr`, of an address and a port. -/
def ipPortStr (p : Bytes × ℕ) : Bytes := p.1 ++ decimal p.2

/-- What `cacheServerKeepAlive` does to the registry. -/
def cacheServerKeepAlive (r : Registry) (addr : SockAddr) : Registry :=
  let p := getIpAndPort addr
  if ipPortStr p ∈ r.cacheServersMp then r
  else
    { ipPortLs := r.ipPortLs ++ [ipPortStr p]
      ipLs := r.ipLs ++ [p.1]
      portLs := r.portLs ++ [p.2]
      cacheServersMp := r.cacheServersMp.emplace (ipPortStr p) 0 }

/-! ## What is listed

The three vectors grow together, and the map says which texts are there. So after
any heartbeats the pairs that are listed are those of the first heartbeat with
each text, in the order in which they came (`lists_keepAliveAll`). Whether a text
is that of one machine only is no question of the registry. A port is written
behind the address without anything in between, so `10.0.0.1` and `17001` have the
text of `10.0.0.11` and `7001`. -/

/-- **The registry lists these pairs.** -/
structure Lists (r : Registry) (l : List (Bytes × ℕ)) : Prop where
  ipPortLs : r.ipPortLs = l.map ipPortStr
  ipLs : r.ipLs = l.map Prod.fst
  portLs : r.portLs = l.map Prod.snd
  keys : ∀ k, k ∈ r.cacheServersMp ↔ k ∈ l.map ipPortStr

variable {r : Registry} {l : List (Bytes × ℕ)}

/-- **A heartbeat adds a pair with a new text.** -/
theorem Lists.cacheServerKeepAlive (h : Lists r l) (addr : SockAddr) :
    Lists (cacheServerKeepAlive r addr) (keep ipPortStr l (getIpAndPort addr)) := by
  unfold CacheRegistry.cacheServerKeepAlive keep
  dsimp only
  by_cases hknown : ipPortStr (getIpAndPort addr) ∈ r.cacheServersMp
  · rw [if_pos hknown, if_pos ((h.keys _).mp hknown)]
    exact h
  · rw [if_neg hknown, if_neg (fun hmem => hknown ((h.keys _).mpr hmem))]
    refine ⟨?_, ?_, ?_, fun k => ?_⟩
    · rw [h.ipPortLs, List.map_append]
      rfl
    · rw [h.ipLs, List.map_append]
      rfl
    · rw [h.portLs, List.map_append]
      rfl
    · rw [Marks.mem_emplace, List.map_append, List.mem_append, h.keys, List.map_singleton,
        List.mem_singleton, or_comm]

/-- The registry after the heartbeats of a sequence of peers, from empty. -/
def keepAliveAll (addrs : List SockAddr) : Registry :=
  addrs.foldl cacheServerKeepAlive Registry.empty

/-- **After any heartbeats the registry lists the first with each text.** -/
theorem lists_keepAliveAll (addrs : List SockAddr) :
    Lists (keepAliveAll addrs) (firsts ipPortStr (addrs.map getIpAndPort)) := by
  induction addrs using List.reverseRecOn with
  | nil => exact ⟨rfl, rfl, rfl, fun k => by simp [keepAliveAll, Registry.empty, firsts]⟩
  | append_singleton addrs addr ih =>
    unfold keepAliveAll
    rw [List.foldl_concat, List.map_append, List.map_singleton, firsts_concat]
    exact ih.cacheServerKeepAlive addr

theorem Lists.iplist_eq (h : Lists r l) :
    r.iplist = some (l.map (fun p => ipPort p.1 p.2)) := by
  have hlength : ∀ {β : Type} (f : Bytes × ℕ → β), r.ipPortLs.length = (l.map f).length := by
    intro β f
    rw [h.ipPortLs, List.length_map, List.length_map]
  unfold iplist
  rw [texts_eq, h.ipLs, h.portLs, if_pos ⟨(hlength _).le, (hlength _).le⟩, List.zipWith_map,
    List.zipWith_self]
  rw [hlength (fun p => ipPort p.1 p.2), List.take_length]

/-- **The registry has one entry per machine**: the addresses and the ports are
the different pairs of the heartbeats, each once and in the order in which they
first appear, and these, as `ip:port`, are the list that is sent. -/
def OnePerMachine (addrs : List SockAddr) : Prop :=
  let r := keepAliveAll addrs
  let pairs := (addrs.map getIpAndPort).eraseDups
  r.ipLs = pairs.map Prod.fst ∧ r.portLs = pairs.map Prod.snd
    ∧ r.iplist = some (pairs.map (fun p => ipPort p.1 p.2))

/-- **When the registry has one entry per machine**: exactly if no two different
machines among the heartbeats have one text, address and port written without
anything between them. -/
theorem onePerMachine_iff (addrs : List SockAddr) :
    OnePerMachine addrs
      ↔ ∀ a ∈ addrs, ∀ b ∈ addrs, ipPortStr (getIpAndPort a) = ipPortStr (getIpAndPort b) →
        getIpAndPort a = getIpAndPort b := by
  have hlists := lists_keepAliveAll addrs
  have hsame : OnePerMachine addrs
      ↔ firsts ipPortStr (addrs.map getIpAndPort) = (addrs.map getIpAndPort).eraseDups := by
    unfold OnePerMachine
    dsimp only
    rw [hlists.ipLs, hlists.portLs, hlists.iplist_eq]
    constructor
    · rintro ⟨hips, hports, -⟩
      rw [← List.zip_unzip (firsts ipPortStr (addrs.map getIpAndPort)),
        ← List.zip_unzip (List.eraseDups _), List.unzip_fst, List.unzip_snd, List.unzip_fst,
        List.unzip_snd, hips, hports]
    · intro heq
      rw [heq]
      exact ⟨rfl, rfl, rfl⟩
  rw [hsame, firsts_eq_eraseDups_iff, List.forall_mem_map]
  refine forall_congr' (fun a => imp_congr_right (fun _ => ?_))
  exact List.forall_mem_map

/-- **Two machines with one text**: `10.0.0.1` with port `17001`, and
`10.0.0.11` with port `7001`. The second is not registered. -/
theorem not_onePerMachine_same_text : ¬ ∀ addrs, OnePerMachine addrs := by
  intro h
  have hone := h [⟨⟨10, 0, 0, 1⟩, 26946⟩, ⟨⟨10, 0, 0, 11⟩, 22811⟩]
  exact absurd hone.2.1 (by decide +kernel)

end CacheRegistry

end MiniDcs
