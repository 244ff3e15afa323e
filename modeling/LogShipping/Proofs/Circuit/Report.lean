import LogShipping.Proofs.Circuit.History
import LogShipping.Proofs.Peer.Cache
import Mathlib.Data.List.Find
import Mathlib.Data.List.Nodup

/-!
# The report of open circuits

Each peer has the circuit that its calls since its last removal have made. The report goes by what was counted
over the whole life of that circuit: it lists a peer if more calls were rejected than succeeded. So it misses a
circuit that has opened until more calls are rejected than the balance of its earlier life, and it keeps a
circuit listed that has recovered until as many calls have succeeded as were rejected.
-/

namespace LogShipping.PeerCircuits

/-- What the circuits of peers live through: a call for a peer comes in, a call that a peer's present circuit let
through has ended, or a peer is removed. Calls that an earlier circuit let through touch none of them. -/
inductive Event
  | entered (peer : String) (made : Nat)
  | left (peer : String) (ended : Nat) (failed : Bool)
  | removed (peer : String)
  deriving Repr, DecidableEq

def undergo (circuits : PeerCircuits) : Event → PeerCircuits
  | .entered peer made =>
    let ready := circuits.ofPeer peer
    ready.2.update { ready.1 with circuit := (ready.1.circuit.enter made).2 }
  | .left peer ended failed =>
    match circuits.find? peer with
    | none => circuits
    | some entry => circuits.update { entry with circuit := entry.circuit.leave ended failed }
  | .removed peer => circuits.remove peer

def undergoAll (circuits : PeerCircuits) (events : List Event) : PeerCircuits := events.foldl undergo circuits

/-- Whether a call made for a peer now would be let through. -/
def admits (circuits : PeerCircuits) (peer : String) (now : Nat) : Bool :=
  ((circuits.ofPeer peer).1.circuit.enter now).1

/-- What a peer's circuit has lived through after one event more; there is none before its first call. -/
def extendHistory (peer : String) (history : Option (List Circuit.Event)) : Event → Option (List Circuit.Event)
  | .entered other made => if other = peer then some (history.getD [] ++ [.entered made]) else history
  | .left other ended failed => if other = peer then history.map (· ++ [.left ended failed]) else history
  | .removed other => if other = peer then none else history

def Event.peer : Event → String
  | .entered peer _ => peer
  | .left peer .. => peer
  | .removed peer => peer

/-- What a peer's circuit has lived through since the peer's last removal. -/
def history? (peer : String) (events : List Event) : Option (List Circuit.Event) :=
  events.foldl (extendHistory peer) none

/-- The circuit of a peer as it is made. -/
def fresh (settings : Circuit.Settings) (peer : String) : Circuit := .create ("peer_" ++ peer) settings

/-! ## One circuit for each peer -/

/-- No two circuits have one number or one peer, and all numbers were given out. -/
structure Distinct (circuits : PeerCircuits) : Prop where
  numbers : (circuits.entries.map (·.number)).Nodup
  peers : (circuits.entries.map (·.peer)).Nodup
  given : ∀ entry ∈ circuits.entries, entry.number < circuits.next

section Lookup

variable {circuits : PeerCircuits} {peer other : String} {entry : PeerCircuit}

theorem mem_of_find? (h : circuits.find? peer = some entry) : entry ∈ circuits.entries ∧ entry.peer = peer :=
  ⟨List.mem_of_find?_eq_some h, by simpa using List.find?_some h⟩

theorem Distinct.eq_of_number (h : circuits.Distinct) (hfind : circuits.find? peer = some entry)
    {old : PeerCircuit} (hold : old ∈ circuits.entries) (hnumber : old.number = entry.number) : old = entry :=
  List.inj_on_of_nodup_map h.numbers hold (mem_of_find? hfind).1 hnumber

theorem Distinct.find?_eq (h : circuits.Distinct) (hmem : entry ∈ circuits.entries) :
    circuits.find? entry.peer = some entry := by
  have hsome : (circuits.find? entry.peer).isSome = true :=
    List.find?_isSome.mpr ⟨entry, hmem, by rw [beq_self_eq_true]⟩
  obtain ⟨first, hfirst⟩ := Option.isSome_iff_exists.mp hsome
  obtain ⟨hlisted, hpeer⟩ := mem_of_find? hfirst
  rw [hfirst, List.inj_on_of_nodup_map h.peers hlisted hmem hpeer]

theorem ofPeer_of_find? (h : circuits.find? peer = some entry) : circuits.ofPeer peer = (entry, circuits) := by
  rw [ofPeer, h]

theorem peer_ofPeer (circuits : PeerCircuits) (peer : String) : (circuits.ofPeer peer).1.peer = peer := by
  unfold ofPeer
  cases hfind : circuits.find? peer with
  | some entry => exact (mem_of_find? hfind).2
  | none => rfl

theorem find?_ofPeer (circuits : PeerCircuits) (peer other : String) :
    (circuits.ofPeer peer).2.find? other =
      if other = peer then some (circuits.ofPeer peer).1 else circuits.find? other := by
  cases hfind : circuits.find? peer with
  | some entry =>
    rw [ofPeer_of_find? hfind]
    by_cases hsame : other = peer
    · rw [if_pos hsame, hsame, hfind]
    · rw [if_neg hsame]
  | none =>
    have hmade : (circuits.ofPeer peer).2.find? other =
        (circuits.find? other).or (List.find? (·.peer == other) [(circuits.ofPeer peer).1]) := by
      rw [ofPeer, hfind]
      exact List.find?_append
    have hpeer := circuits.peer_ofPeer peer
    rw [hmade]
    by_cases hsame : other = peer
    · rw [if_pos hsame, hsame, hfind, Option.none_or, List.find?_cons_of_pos (by rw [hpeer, beq_self_eq_true])]
    · rw [if_neg hsame, List.find?_cons_of_neg (by simpa [hpeer] using Ne.symm hsame), List.find?_nil, Option.or_none]

/-- What is put back is found under its peer, and nothing else changes. -/
theorem Distinct.find?_update (h : circuits.Distinct) (hfind : circuits.find? peer = some entry)
    (circuit : Circuit) (other : String) :
    (circuits.update { entry with circuit }).find? other =
      if other = peer then some { entry with circuit } else circuits.find? other := by
  have hkeeps : ∀ old ∈ circuits.entries, (((·.peer == other) : PeerCircuit → Bool) ∘
      fun old ↦ if old.number = entry.number then { entry with circuit } else old) old = (old.peer == other) := by
    intro old hold
    rw [Function.comp_apply]
    split
    case isTrue hnumber => rw [h.eq_of_number hfind hold hnumber]
    case isFalse => rfl
  show (circuits.entries.map _).find? _ = _
  rw [List.find?_map, List.find?_congr hkeeps]
  split
  case isTrue hother =>
    subst hother
    rw [show circuits.entries.find? (·.peer == other) = some entry from hfind, Option.map_some, if_pos rfl]
  case isFalse hother =>
    cases hold : circuits.find? other with
    | none =>
      rw [show circuits.entries.find? (·.peer == other) = none from hold]
      rfl
    | some old =>
      obtain ⟨hlisted, hpeer⟩ := mem_of_find? hold
      rw [show circuits.entries.find? (·.peer == other) = some old from hold, Option.map_some, if_neg]
      exact fun hnumber ↦ hother (by
        rw [← (mem_of_find? hfind).2, ← hpeer, h.eq_of_number hfind hlisted hnumber])

theorem find?_remove (circuits : PeerCircuits) (peer other : String) :
    (circuits.remove peer).find? other = if other = peer then none else circuits.find? other :=
  find?_filter_name_ne peer circuits.entries

end Lookup

namespace Distinct

variable {circuits : PeerCircuits}

theorem create (settings : Circuit.Settings) : (PeerCircuits.create settings).Distinct :=
  ⟨List.nodup_nil, List.nodup_nil, fun _ hmem ↦ absurd hmem List.not_mem_nil⟩

theorem ofPeer (h : circuits.Distinct) (peer : String) : (circuits.ofPeer peer).2.Distinct := by
  unfold PeerCircuits.ofPeer
  cases hfind : circuits.find? peer with
  | some entry => exact h
  | none =>
    have hnew : peer ∉ circuits.entries.map (·.peer) := by
      intro hmem
      obtain ⟨entry, hentry, hpeer⟩ := List.mem_map.mp hmem
      rw [← hpeer, h.find?_eq hentry] at hfind
      cases hfind
    have hnumber : circuits.next ∉ circuits.entries.map (·.number) := by
      intro hmem
      obtain ⟨entry, hentry, hnumber⟩ := List.mem_map.mp hmem
      exact Nat.ne_of_lt (h.given entry hentry) hnumber
    refine ⟨?_, ?_, fun entry hmem ↦ ?_⟩
    · rw [List.map_append]
      exact h.numbers.append (List.nodup_singleton _) (List.disjoint_singleton.mpr hnumber)
    · rw [List.map_append]
      exact h.peers.append (List.nodup_singleton _) (List.disjoint_singleton.mpr hnew)
    · rcases List.mem_append.mp hmem with hmem | hmem
      · exact Nat.lt_succ_of_lt (h.given entry hmem)
      · rw [List.mem_singleton.mp hmem]
        exact Nat.lt_succ_self _

/-- What a changed circuit keeps is the same for all of them. -/
theorem map_update (h : circuits.Distinct) {peer : String} {entry : PeerCircuit}
    (hfind : circuits.find? peer = some entry) (circuit : Circuit) {α : Type} (f : PeerCircuit → α)
    (hf : f { entry with circuit } = f entry) :
    (circuits.update { entry with circuit }).entries.map f = circuits.entries.map f := by
  rw [PeerCircuits.update, List.map_map]
  refine List.map_congr_left fun old hold ↦ ?_
  rw [Function.comp_apply]
  split
  case isTrue hnumber => rw [hf, h.eq_of_number hfind hold hnumber]
  case isFalse => rfl

theorem update (h : circuits.Distinct) {peer : String} {entry : PeerCircuit}
    (hfind : circuits.find? peer = some entry) (circuit : Circuit) :
    (circuits.update { entry with circuit }).Distinct := by
  have hnumbers := h.map_update hfind circuit (·.number) rfl
  have hpeers := h.map_update hfind circuit (·.peer) rfl
  refine ⟨hnumbers ▸ h.numbers, hpeers ▸ h.peers, fun after hmem ↦ ?_⟩
  have hgiven : after.number ∈ circuits.entries.map (·.number) := hnumbers ▸ List.mem_map_of_mem hmem
  obtain ⟨old, hold, hnumber⟩ := List.mem_map.mp hgiven
  exact hnumber ▸ h.given old hold

theorem remove (h : circuits.Distinct) (peer : String) : (circuits.remove peer).Distinct where
  numbers := h.numbers.sublist (List.filter_sublist.map _)
  peers := h.peers.sublist (List.filter_sublist.map _)
  given entry hmem := h.given entry (List.mem_of_mem_filter hmem)

end Distinct

/-! ## Each peer's circuit has lived through its own history -/

/-- The circuit of each peer is what its history has made of a new one. -/
structure Recounts (settings : Circuit.Settings) (events : List Event) (circuits : PeerCircuits) : Prop where
  governed : circuits.settings = settings
  distinct : circuits.Distinct
  lived : ∀ peer, (circuits.find? peer).map (·.circuit) =
    (history? peer events).map (fresh settings peer).undergoAll

namespace Recounts

variable {settings : Circuit.Settings} {events : List Event} {circuits : PeerCircuits}

theorem create (settings : Circuit.Settings) : Recounts settings [] (PeerCircuits.create settings) :=
  ⟨rfl, .create settings, fun _ ↦ rfl⟩

theorem history?_concat (peer : String) (events : List Event) (event : Event) :
    history? peer (events ++ [event]) = extendHistory peer (history? peer events) event := by
  rw [history?, List.foldl_append]
  rfl

/-- An event is no part of another peer's history. -/
theorem extendHistory_of_ne {event : Event} {other : String} (hne : event.peer ≠ other)
    (history : Option (List Circuit.Event)) : extendHistory other history event = history := by
  cases event <;> exact if_neg hne

/-- An event that changes the circuit of its own peer as it changes the peer's history leaves all others alone. -/
theorem concat (h : Recounts settings events circuits) (event : Event) {after : PeerCircuits}
    (found : Option PeerCircuit) (hgoverned : after.settings = settings) (hdistinct : after.Distinct)
    (hfind : ∀ other, after.find? other = if other = event.peer then found else circuits.find? other)
    (hown : found.map (·.circuit) = (extendHistory event.peer (history? event.peer events) event).map
      (fresh settings event.peer).undergoAll) :
    Recounts settings (events ++ [event]) after := by
  refine ⟨hgoverned, hdistinct, fun other ↦ ?_⟩
  rw [hfind, history?_concat]
  by_cases hsame : other = event.peer
  · rw [if_pos hsame, hsame]
    exact hown
  · rw [if_neg hsame, extendHistory_of_ne (Ne.symm hsame)]
    exact h.lived other

/-- A call for a peer meets the circuit that the peer's history has made, a new one if there is none. -/
theorem circuit_ofPeer (h : Recounts settings events circuits) (peer : String) :
    (circuits.ofPeer peer).1.circuit = (fresh settings peer).undergoAll ((history? peer events).getD []) := by
  have hlived := h.lived peer
  unfold ofPeer
  cases hfind : circuits.find? peer with
  | some entry =>
    rw [hfind] at hlived
    obtain ⟨history, hhistory, hcircuit⟩ := Option.map_eq_some_iff.mp hlived.symm
    rw [hhistory]
    exact hcircuit.symm
  | none =>
    rw [hfind] at hlived
    rw [Option.map_eq_none_iff.mp hlived.symm, h.governed]
    rfl

theorem undergo (h : Recounts settings events circuits) (event : Event) :
    Recounts settings (events ++ [event]) (circuits.undergo event) := by
  cases event with
  | entered peer made =>
    have hfind : (circuits.ofPeer peer).2.find? peer = some (circuits.ofPeer peer).1 := by
      rw [find?_ofPeer, if_pos rfl]
    have hdistinct := h.distinct.ofPeer peer
    let circuit := ((circuits.ofPeer peer).1.circuit.enter made).2
    refine h.concat (.entered peer made) (some { (circuits.ofPeer peer).1 with circuit }) ?_
      (hdistinct.update hfind circuit) (fun other ↦ ?_) ?_
    · show (circuits.ofPeer peer).2.settings = settings
      unfold ofPeer
      cases circuits.find? peer <;> exact h.governed
    · refine (hdistinct.find?_update hfind circuit other).trans ?_
      rw [find?_ofPeer]
      by_cases hsame : other = peer
      · rw [if_pos hsame]
        exact (if_pos hsame).symm
      · rw [if_neg hsame, if_neg hsame]
        exact (if_neg hsame).symm
    · rw [Event.peer, extendHistory, if_pos rfl, Option.map_some, Option.map_some, Circuit.undergoAll_append,
        ← h.circuit_ofPeer]
      rfl
  | left peer ended failed =>
    have hlived := h.lived peer
    cases hfind : circuits.find? peer with
    | none =>
      rw [hfind] at hlived
      rw [PeerCircuits.undergo, hfind]
      refine h.concat (.left peer ended failed) none h.governed h.distinct (fun other ↦ ?_) ?_
      · show circuits.find? other = if other = peer then none else circuits.find? other
        split
        case isTrue hsame => exact hsame ▸ hfind
        case isFalse => rfl
      · rw [Event.peer, extendHistory, if_pos rfl, Option.map_eq_none_iff.mp hlived.symm]
        rfl
    | some entry =>
      rw [hfind] at hlived
      obtain ⟨history, hhistory, hcircuit⟩ := Option.map_eq_some_iff.mp hlived.symm
      rw [PeerCircuits.undergo, hfind]
      refine h.concat (.left peer ended failed) _ h.governed (h.distinct.update hfind _)
        (h.distinct.find?_update hfind _) ?_
      rw [Event.peer, extendHistory, if_pos rfl, hhistory, Option.map_some, Option.map_some, Option.map_some,
        Circuit.undergoAll_append, hcircuit]
      rfl
  | removed peer =>
    refine h.concat (.removed peer) none h.governed (h.distinct.remove peer) (circuits.find?_remove peer) ?_
    rw [Event.peer, extendHistory, if_pos rfl]
    rfl

theorem undergoAll (settings : Circuit.Settings) (events : List Event) :
    Recounts settings events ((PeerCircuits.create settings).undergoAll events) := by
  induction events using List.reverseRecOn with
  | nil => exact create settings
  | append_singleton events event ih =>
    rw [PeerCircuits.undergoAll, List.foldl_append]
    exact ih.undergo event

end Recounts

/-! ## What is reported -/

theorem Distinct.mem_openPeers_iff {circuits : PeerCircuits} (h : circuits.Distinct) (peer : String) :
    peer ∈ circuits.openPeers ↔ ∃ entry, circuits.find? peer = some entry ∧
      entry.circuit.successes < entry.circuit.rejections := by
  have hlooks (circuit : Circuit) : circuit.looksOpen = true ↔ circuit.successes < circuit.rejections := by
    simp only [Circuit.looksOpen, Bool.and_eq_true, decide_eq_true_eq]
    omega
  simp only [openPeers, List.mem_mergeSort, List.mem_map, List.mem_filter, hlooks]
  constructor
  · rintro ⟨entry, ⟨hmem, hless⟩, rfl⟩
    exact ⟨entry, h.find?_eq hmem, hless⟩
  · rintro ⟨entry, hfind, hless⟩
    obtain ⟨hmem, hpeer⟩ := mem_of_find? hfind
    exact ⟨entry, ⟨hmem, hless⟩, hpeer⟩

namespace Recounts

variable {settings : Circuit.Settings} {events : List Event} {circuits : PeerCircuits}

/-- A peer is listed if and only if more of its calls were rejected than succeeded since its last removal. -/
theorem mem_openPeers_iff (h : Recounts settings events circuits) (peer : String) :
    peer ∈ circuits.openPeers ↔
      Circuit.succeeded ((history? peer events).getD []) <
        (fresh settings peer).rejected ((history? peer events).getD []) := by
  rw [h.distinct.mem_openPeers_iff]
  have hlived := h.lived peer
  cases hhistory : history? peer events with
  | none =>
    rw [hhistory, Option.map_none, Option.map_eq_none_iff] at hlived
    rw [hlived]
    constructor
    · rintro ⟨entry, hsome, -⟩
      cases hsome
    · exact fun hless ↦ absurd hless (Nat.lt_irrefl 0)
  | some history =>
    rw [hhistory] at hlived
    obtain ⟨entry, hfind, hcircuit⟩ := Option.map_eq_some_iff.mp hlived
    have hrejections := (fresh settings peer).rejections_undergoAll history
    have hsuccesses := (fresh settings peer).successes_undergoAll history
    rw [← hcircuit, show (fresh settings peer).rejections = 0 from rfl, Nat.zero_add] at hrejections
    rw [← hcircuit, show (fresh settings peer).successes = 0 from rfl, Nat.zero_add] at hsuccesses
    rw [hfind, Option.getD_some, ← hrejections, ← hsuccesses]
    constructor
    · rintro ⟨found, hsome, hless⟩
      cases hsome
      exact hless
    · exact fun hless ↦ ⟨entry, rfl, hless⟩

/-- A call for a peer would be rejected if and only if a call's end has opened the peer's circuit and the time to
recover from then on is not over. -/
theorem admits_iff (h : Recounts settings events circuits) (peer : String) (now : Nat) :
    circuits.admits peer now = false ↔
      ∃ opening : (fresh settings peer).Opening ((history? peer events).getD []), now ≤ opening.retryAfter := by
  have hanswer : circuits.admits peer now = !(circuits.ofPeer peer).1.circuit.rejectsAt now := rfl
  have hshut (other : Nat) : (fresh settings peer).phase ≠ .opened other := fun hopen ↦ by cases hopen
  rw [hanswer, Bool.not_eq_false', h.circuit_ofPeer, Circuit.rejectsAt_undergoAll_iff hshut]

end Recounts

/-- The report lists a peer if and only if more of its calls were rejected than succeeded since its last removal,
while a call would be rejected if and only if some call's end has opened the circuit and the time to recover is
not over. So it is right about an open circuit if and only if the calls rejected before and all that came in since
it opened outnumber the successes of its life, and about any other if and only if the rejections do not. -/
theorem openPeers_accurate_iff (settings : Circuit.Settings) (events : List Event) (peer : String) (now : Nat) :
    let circuits := (create settings).undergoAll events
    let circuit := fresh settings peer
    let history := (history? peer events).getD []
    (peer ∈ circuits.openPeers ↔ Circuit.succeeded history < circuit.rejected history) ∧
      (circuits.admits peer now = false ↔ ∃ opening : circuit.Opening history, now ≤ opening.retryAfter) ∧
      (∀ opening : circuit.Opening history, now ≤ opening.retryAfter →
        ((peer ∈ circuits.openPeers ↔ circuits.admits peer now = false) ↔
          Circuit.succeeded history < circuit.rejected opening.before + Circuit.called opening.since)) ∧
      ((∀ opening : circuit.Opening history, opening.retryAfter < now) →
        ((peer ∈ circuits.openPeers ↔ circuits.admits peer now = false) ↔
          circuit.rejected history ≤ Circuit.succeeded history)) := by
  intro circuits circuit history
  have hrecounts := Recounts.undergoAll settings events
  have hlisted : peer ∈ circuits.openPeers ↔ _ := hrecounts.mem_openPeers_iff peer
  have hrejected : circuits.admits peer now = false ↔ _ := hrecounts.admits_iff peer now
  refine ⟨hlisted, hrejected, fun opening hopen ↦ ?_, fun hover ↦ ?_⟩
  · rw [iff_true_right (hrejected.mpr ⟨opening, hopen⟩), hlisted]
    show _ < circuit.rejected history ↔ _
    rw [opening.phase_undergoAll.2]
  · have hnot : ¬circuits.admits peer now = false := by
      rw [hrejected]
      rintro ⟨opening, hopen⟩
      exact Nat.not_lt.mpr hopen (hover opening)
    rw [iff_false_right hnot, hlisted, Nat.not_lt]

namespace Sample

/-- Circuits that open at the second failure in a row, for ten nanoseconds. -/
def settings : Circuit.Settings := ⟨1, 1, 10⟩

/-- A call for peer "2" that is let through and ends at once. -/
def call (now : Nat) (failed : Bool) : List Event := [.entered "2" now, .left "2" now failed]

/-- Two calls fail, and one is rejected. -/
def struck : List Event := call 0 true ++ call 1 true ++ [.entered "2" 2]

/-- The second failure opens the circuit. -/
def opening : (fresh settings "2").Opening ((history? "2" struck).getD []) where
  before := [.entered 0, .left 0 true, .entered 1]
  ended := 1
  failed := true
  since := [.entered 2]
  splits := by decide
  shut other hother := by
    have hphase : ((fresh settings "2").undergoAll [.entered 0, .left 0 true, .entered 1]).phase =
        .closed ⟨1, [true]⟩ := by
      decide
    rw [hphase] at hother
    cases hother
  opens := by decide +kernel
  early made hmem := by
    cases List.mem_singleton.mp hmem
    decide

/-- Two calls succeed, a third fails and opens the circuit, and two more are rejected. -/
def overlooked : List Event :=
  call 0 false ++ call 1 false ++ call 2 true ++ [.entered "2" 3, .entered "2" 4]

/-- Two calls fail, three are rejected, and two succeed after the recovery. -/
def outlived : List Event :=
  call 0 true ++ call 1 true ++ [.entered "2" 2, .entered "2" 3, .entered "2" 4] ++ call 20 false ++ call 21 false

end Sample

/-- A circuit that has not seen a success is reported from the first rejection on. -/
theorem openPeers_accurate_struck :
    "2" ∈ ((create Sample.settings).undergoAll Sample.struck).openPeers ∧
      ((create Sample.settings).undergoAll Sample.struck).admits "2" 5 = false := by
  obtain ⟨-, hrejected, hopen, -⟩ := openPeers_accurate_iff Sample.settings Sample.struck "2" 5
  have hearly : 5 ≤ Sample.opening.retryAfter := by decide
  have hrejects := hrejected.mpr ⟨Sample.opening, hearly⟩
  exact ⟨((hopen Sample.opening hearly).mpr (by decide)).mpr hrejects, hrejects⟩

/-- A circuit that opened after two calls had succeeded rejects calls, and is not reported though two calls were
rejected. One that has recovered and lets calls through is still reported. -/
theorem openPeers_inaccurate :
    ("2" ∉ ((create Sample.settings).undergoAll Sample.overlooked).openPeers ∧
        ((create Sample.settings).undergoAll Sample.overlooked).admits "2" 5 = false) ∧
      "2" ∈ ((create Sample.settings).undergoAll Sample.outlived).openPeers ∧
        ((create Sample.settings).undergoAll Sample.outlived).admits "2" 22 = true := by
  have hoverlooked := (Recounts.undergoAll Sample.settings Sample.overlooked).mem_openPeers_iff "2"
  have houtlived := (Recounts.undergoAll Sample.settings Sample.outlived).mem_openPeers_iff "2"
  rw [hoverlooked, houtlived]
  decide +kernel

end LogShipping.PeerCircuits
