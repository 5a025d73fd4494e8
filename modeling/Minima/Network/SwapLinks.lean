import Minima.Utils.BaseConverter

/-! # `SwapLinksFunctions`: the four maps of links

A node keeps its connections in four maps: those that have not greeted yet, its links in both directions,
and those that accept no links. Three handlers move a client between them.

* **`mem_links_step`** — what an event does to the four maps, in one place.
* **`Session.partition_next_iff`** — which events leave a partition a partition.
* **`partition_iff`** — over any events the maps are a partition exactly when no client that has greeted
  connects again or goes to another map, and none greets when it is gone. A client is in no map behind its
  `onDisconnected`.
* **`twoGreetings_not_partition`** — two greetings of one client, of which the second accepts no links. -/

namespace Minima

/-! ## Addresses, clients and greetings -/

/-- `InetSocketAddress`: the numeric address of a host, the host and a port. -/
structure InetSocketAddress where
  address : Text
  originalHost : Text
  port : ℤ
  deriving DecidableEq

/-- What the handlers read of a `NIOClientInfo` or a `NIOClient`. -/
structure NIOClientInfo where
  uid : Text
  host : Text
  port : ℤ
  incoming : Bool
  deriving DecidableEq

/-- `P2PGreeting`. -/
structure P2PGreeting where
  myMinimaPort : ℤ
  acceptingInLinks : Bool
  outLinks : List InetSocketAddress
  inLinks : List InetSocketAddress
  numNoneP2PConnections : ℤ
  maxNumNoneP2PConnections : ℤ
  knownPeers : List InetSocketAddress
  deriving DecidableEq

/-- What the handlers ask of the machine: the numeric address of a host, the node's port, a random secret, a
random order of addresses, and whether the server still has a client. -/
structure P2PEnvironment where
  resolve : Text → Text
  minimaPort : ℤ
  randomSecret : MiniData
  shuffle : List InetSocketAddress → List InetSocketAddress
  hasClient : Text → Bool

/-- The constructor of `InetSocketAddress`. -/
def P2PEnvironment.socketAddress (env : P2PEnvironment) (host : Text) (port : ℤ) : InetSocketAddress :=
  ⟨env.resolve host, host, port⟩

/-! ## The state -/

/-- A map from the uids of clients to addresses. -/
abbrev Links := AList fun _ : Text => InetSocketAddress

/-- The values of a map. -/
def Links.values (links : Links) : List InetSocketAddress := links.entries.map fun e => e.2

/-- The four maps of links. -/
inductive LinkMap where
  | noneP2P
  | inLinks
  | outLinks
  | notAccepting
  deriving DecidableEq

/-- What the handlers use of the `P2PState`. -/
structure P2PState where
  inLinks : Links
  outLinks : Links
  notAcceptingConnP2PLinks : Links
  noneP2PLinks : Links
  knownPeers : List InetSocketAddress
  myMinimaAddress : InetSocketAddress
  ipReqSecret : MiniData
  acceptingInLinks : Bool
  maxNumNoneP2PConnections : ℤ
  maxNumP2PConnections : ℤ
  doingDiscoveryConnection : Bool
  hostSet : Bool

namespace P2PState

/-- A map of the state. -/
def links (state : P2PState) : LinkMap → Links
  | .noneP2P => state.noneP2PLinks
  | .inLinks => state.inLinks
  | .outLinks => state.outLinks
  | .notAccepting => state.notAcceptingConnP2PLinks

/-- The state without any link. -/
def unlinked (state : P2PState) : P2PState :=
  { state with inLinks := ∅, outLinks := ∅, notAcceptingConnP2PLinks := ∅, noneP2PLinks := ∅ }

end P2PState

/-- `MAX_SHARED_PEERS`. -/
def maxSharedPeers : ℕ := 20

/-- The constructor of `P2PGreeting` from the state. -/
def P2PGreeting.ofState (env : P2PEnvironment) (state : P2PState) : P2PGreeting :=
  let known := if state.acceptingInLinks then state.knownPeers ++ [state.myMinimaAddress]
    else state.knownPeers
  { myMinimaPort := env.minimaPort
    acceptingInLinks := state.acceptingInLinks
    outLinks := state.outLinks.values
    inLinks := state.inLinks.values
    numNoneP2PConnections := state.noneP2PLinks.entries.length
    maxNumNoneP2PConnections := state.maxNumNoneP2PConnections
    knownPeers := if maxSharedPeers < known.length then (env.shuffle known).take maxSharedPeers else known }

/-! ## The handlers -/

/-- The messages that `onConnected` hands back. -/
inductive P2PMessage where
  /-- `P2P_SEND_DISCONNECT`. -/
  | sendDisconnect (uid : Text)
  /-- `P2P_SEND_MSG` with a greeting. -/
  | sendGreeting (uid : Text) (greeting : P2PGreeting)
  /-- `P2P_SEND_MSG` with `req_ip`. -/
  | sendRequestIP (uid : Text) (secret : MiniData)
  deriving DecidableEq

namespace SwapLinksFunctions

/-- An address is among the links. -/
def containsAddress (links : Links) (a : InetSocketAddress) : Bool :=
  links.values.any fun b => b.address = a.address ∧ b.port = a.port

/-- **`onConnected`.** The client of an address that is there already is to be disconnected, and gets no
greeting; into the map it goes all the same. -/
def onConnected (env : P2PEnvironment) (state : P2PState) (incoming : Bool) (info : NIOClientInfo) :
    P2PState × List P2PMessage :=
  let address := env.socketAddress info.host (if incoming then 0 else info.port)
  let alreadyConnected := incoming && containsAddress state.noneP2PLinks address
  let state := { state with noneP2PLinks := state.noneP2PLinks.insert info.uid address }
  if alreadyConnected then (state, [.sendDisconnect info.uid])
  else
    let greeting := P2PGreeting.ofState env state
    if state.hostSet then (state, [.sendGreeting info.uid greeting])
    else ({ state with ipReqSecret := env.randomSecret },
      [.sendGreeting info.uid greeting, .sendRequestIP info.uid env.randomSecret])

/-- **`onDisconnected`.** -/
def onDisconnected (state : P2PState) (uid : Text) : P2PState :=
  { state with
    inLinks := state.inLinks.erase uid
    notAcceptingConnP2PLinks := state.notAcceptingConnP2PLinks.erase uid
    outLinks := state.outLinks.erase uid
    noneP2PLinks := state.noneP2PLinks.erase uid }

/-- What `processGreeting` leaves: the state, the flag that it returns, the clients to be disconnected, and
the client that is told of the greeting. -/
structure Greeted where
  state : P2PState
  noconnect : Bool
  disconnects : List Text
  received : Option Text

/-- **`processGreeting`.** The maximum is an `int`, and compared as a `size_t`. -/
def processGreeting (env : P2PEnvironment) (state : P2PState) (greeting : P2PGreeting)
    (client : Option NIOClientInfo) (noconnect : Bool) : Greeted :=
  match client with
  | none => ⟨state, noconnect, [], none⟩
  | some client =>
    let uid := client.uid
    let minimaAddress := env.socketAddress client.host greeting.myMinimaPort
    let received := if env.hasClient uid then some uid else none
    let state := { state with noneP2PLinks := state.noneP2PLinks.erase uid }
    if greeting.acceptingInLinks then
      let (state, tooMany) :=
        if client.incoming then ({ state with inLinks := state.inLinks.insert uid minimaAddress }, [])
        else
          let state := { state with outLinks := state.outLinks.insert uid minimaAddress }
          (state, if (state.outLinks.entries.length : ℤ) > state.maxNumP2PConnections % 2 ^ 64 then [uid]
            else [])
      if state.doingDiscoveryConnection then
        ⟨{ state with doingDiscoveryConnection := false }, false, tooMany ++ [uid], received⟩
      else ⟨state, false, tooMany, received⟩
    else
      ⟨{ state with notAcceptingConnP2PLinks := state.notAcceptingConnP2PLinks.insert uid minimaAddress },
        noconnect, [], received⟩

/-! ## Events -/

/-- The events of the link maps. -/
inductive Event where
  | onConnected (env : P2PEnvironment) (incoming : Bool) (info : NIOClientInfo)
  | processGreeting (env : P2PEnvironment) (greeting : P2PGreeting) (client : Option NIOClientInfo)
      (noconnect : Bool)
  | onDisconnected (uid : Text)

namespace Event

/-- The state behind an event. -/
def step (state : P2PState) : Event → P2PState
  | .onConnected env incoming info => (SwapLinksFunctions.onConnected env state incoming info).1
  | .processGreeting env greeting client noconnect =>
    (SwapLinksFunctions.processGreeting env state greeting client noconnect).state
  | .onDisconnected uid => SwapLinksFunctions.onDisconnected state uid

/-- The clients whose disconnection an event asks for. -/
def requests (state : P2PState) : Event → List Text
  | .onConnected env incoming info =>
    (SwapLinksFunctions.onConnected env state incoming info).2.filterMap fun
      | .sendDisconnect uid => some uid
      | _ => none
  | .processGreeting env greeting client noconnect =>
    (SwapLinksFunctions.processGreeting env state greeting client noconnect).disconnects
  | .onDisconnected _ => []

/-- The map that a greeting puts its client in. -/
def greetingMap (greeting : P2PGreeting) (client : NIOClientInfo) : LinkMap :=
  if greeting.acceptingInLinks then if client.incoming then .inLinks else .outLinks else .notAccepting

/-- The client that an event puts in a map, and the map. -/
def target : Event → Option (Text × LinkMap)
  | .onConnected _ _ info => some (info.uid, .noneP2P)
  | .processGreeting _ greeting (some client) _ => some (client.uid, greetingMap greeting client)
  | .processGreeting _ _ none _ => none
  | .onDisconnected _ => none

/-- The event takes a client out of a map. -/
def Erases (uid : Text) (k : LinkMap) : Event → Prop
  | .onConnected _ _ _ => False
  | .processGreeting _ _ (some client) _ => uid = client.uid ∧ k = .noneP2P
  | .processGreeting _ _ none _ => False
  | .onDisconnected gone => uid = gone

end Event

theorem links_onConnected (env : P2PEnvironment) (state : P2PState) (incoming : Bool) (info : NIOClientInfo)
    (k : LinkMap) : ∃ address, (onConnected env state incoming info).1.links k =
      if k = .noneP2P then state.noneP2PLinks.insert info.uid address else state.links k := by
  refine ⟨env.socketAddress info.host (if incoming then 0 else info.port), ?_⟩
  unfold onConnected
  simp only
  split_ifs <;> cases k <;> first | rfl | contradiction

theorem links_processGreeting (env : P2PEnvironment) (state : P2PState) (greeting : P2PGreeting)
    (client : NIOClientInfo) (noconnect : Bool) (k : LinkMap) : ∃ address,
    (processGreeting env state greeting (some client) noconnect).state.links k =
      if k = Event.greetingMap greeting client then (state.links k).insert client.uid address
      else if k = .noneP2P then state.noneP2PLinks.erase client.uid else state.links k := by
  refine ⟨env.socketAddress client.host greeting.myMinimaPort, ?_⟩
  unfold processGreeting Event.greetingMap
  cases greeting.acceptingInLinks <;> cases hincoming : client.incoming <;>
    cases state.doingDiscoveryConnection <;> cases k <;> simp [P2PState.links, hincoming]

/-- **What an event does to the maps**: its client goes to one map, and is taken out of others. -/
theorem mem_links_step (state : P2PState) (e : Event) (uid : Text) (k : LinkMap) :
    uid ∈ (e.step state).links k ↔ e.target = some (uid, k) ∨ (uid ∈ state.links k ∧ ¬ e.Erases uid k) := by
  cases e with
  | onConnected env incoming info =>
    obtain ⟨address, hlinks⟩ := links_onConnected env state incoming info k
    simp only [Event.step, Event.target, Event.Erases, hlinks, Option.some.injEq, Prod.mk.injEq]
    by_cases hk : k = .noneP2P
    · subst hk
      simp [P2PState.links, AList.mem_insert, eq_comm]
    · simp [hk, Ne.symm hk]
  | processGreeting env greeting client noconnect =>
    cases client with
    | none => simp [Event.step, Event.target, Event.Erases, processGreeting]
    | some client =>
      obtain ⟨address, hlinks⟩ := links_processGreeting env state greeting client noconnect k
      have hne : Event.greetingMap greeting client ≠ .noneP2P := by
        unfold Event.greetingMap
        split_ifs <;> simp
      simp only [Event.step, Event.target, Event.Erases, hlinks, Option.some.injEq, Prod.mk.injEq]
      by_cases hk : k = Event.greetingMap greeting client
      · subst hk
        simp [AList.mem_insert, hne, eq_comm]
      · by_cases hnone : k = .noneP2P
        · subst hnone
          simp [P2PState.links, AList.mem_erase, hk, Ne.symm hk, and_comm]
        · simp [hk, hnone, Ne.symm hk]
  | onDisconnected gone =>
    cases k <;> simp [Event.step, Event.target, Event.Erases, onDisconnected, P2PState.links, AList.mem_erase,
      and_comm]

/-! ## Runs -/

/-- **A state with what came before it**: the clients that are connected, those of them whose disconnection
was asked for since, and those that are gone and have not connected again. -/
structure Session where
  state : P2PState
  connected : Finset Text
  requested : Finset Text
  gone : Finset Text

namespace Session

/-- A node without links. -/
def start (state : P2PState) : Session := ⟨state.unlinked, ∅, ∅, ∅⟩

/-- One event. -/
def next (x : Session) (e : Event) : Session :=
  let requests := (e.requests x.state).toFinset
  match e with
  | .onConnected _ _ info =>
    ⟨e.step x.state, insert info.uid x.connected, x.requested.erase info.uid ∪ requests, x.gone.erase info.uid⟩
  | .processGreeting _ _ _ _ => ⟨e.step x.state, x.connected, x.requested ∪ requests, x.gone⟩
  | .onDisconnected uid =>
    ⟨e.step x.state, x.connected.erase uid, x.requested.erase uid, insert uid x.gone⟩

/-- The states of a run, from the first to the last. -/
def run (x : Session) : List Event → List Session
  | [] => [x]
  | e :: events => x :: (x.next e).run events

/-- The state behind a run. -/
def after (x : Session) (events : List Event) : Session := events.foldl next x

/-- Every client is in at most one of the maps. -/
def AtMostOne (x : Session) : Prop :=
  ∀ uid k k', uid ∈ x.state.links k → uid ∈ x.state.links k' → k = k'

/-- **The maps are a partition**: a client is in one of them at most, a client that is connected and not
asked to go is in exactly one, and a client that is gone is in none. -/
def Partition (x : Session) : Prop :=
  x.AtMostOne ∧ (∀ uid ∈ x.connected, uid ∉ x.requested → ∃! k, uid ∈ x.state.links k) ∧
    ∀ uid ∈ x.gone, ∀ k, uid ∉ x.state.links k

/-- **The condition on an event**: its client stays in no map but the one that it goes to, and does not
greet when it is gone. -/
def Keeps (x : Session) (e : Event) : Prop :=
  ∀ uid k, e.target = some (uid, k) →
    (∀ k', k' ≠ k → uid ∈ x.state.links k' → e.Erases uid k') ∧ uid ∉ (x.next e).gone

/-- All events of a run meet the condition. -/
def AllKeep : Session → List Event → Prop
  | _, [] => True
  | x, e :: events => x.Keeps e ∧ (x.next e).AllKeep events

theorem state_next (x : Session) (e : Event) : (x.next e).state = e.step x.state := by
  cases e <;> rfl

/-- A connected client is in a map. -/
def Linked (x : Session) : Prop := ∀ uid ∈ x.connected, ∃ k, uid ∈ x.state.links k

/-- **Events never lose a connected client**, whatever they are. -/
theorem Linked.next {x : Session} (h : x.Linked) (e : Event) : (x.next e).Linked := by
  intro uid huid
  rw [state_next]
  simp only [mem_links_step]
  cases e with
  | onConnected env incoming info =>
    by_cases hinfo : info.uid = uid
    · exact ⟨.noneP2P, .inl (by rw [Event.target, hinfo])⟩
    · obtain ⟨k, hk⟩ := h uid (by simpa [Session.next, Ne.symm hinfo] using huid)
      exact ⟨k, .inr ⟨hk, id⟩⟩
  | processGreeting env greeting client noconnect =>
    obtain ⟨k, hk⟩ := h uid huid
    cases client with
    | none => exact ⟨k, .inr ⟨hk, id⟩⟩
    | some client =>
      by_cases hclient : uid = client.uid
      · exact ⟨_, .inl (by rw [Event.target, hclient])⟩
      · exact ⟨k, .inr ⟨hk, fun herases => hclient herases.1⟩⟩
  | onDisconnected gone =>
    have huid' : uid ≠ gone ∧ uid ∈ x.connected := by simpa [Session.next] using huid
    obtain ⟨k, hk⟩ := h uid huid'.2
    exact ⟨k, .inr ⟨hk, huid'.1⟩⟩

/-- No event but `onDisconnected` makes a client gone. -/
theorem mem_gone_next {x : Session} {e : Event} {uid : Text} (h : uid ∈ (x.next e).gone) :
    uid ∈ x.gone ∨ e = .onDisconnected uid := by
  cases e with
  | onConnected env incoming info => exact .inl (Finset.mem_of_mem_erase h)
  | processGreeting env greeting client noconnect => exact .inl h
  | onDisconnected gone =>
    rcases Finset.mem_insert.mp h with rfl | h
    · exact .inr rfl
    · exact .inl h

/-- **One event**: it leaves a partition a partition exactly if it meets the condition. -/
theorem partition_next_iff {x : Session} (hlinked : x.Linked) (h : x.Partition) (e : Event) :
    (x.next e).Partition ↔ x.Keeps e := by
  obtain ⟨hone, -, hgone⟩ := h
  have hmem : ∀ uid k, uid ∈ (x.next e).state.links k ↔
      e.target = some (uid, k) ∨ (uid ∈ x.state.links k ∧ ¬ e.Erases uid k) := fun uid k => by
    rw [state_next, mem_links_step]
  constructor
  · rintro ⟨hone', -, hgone'⟩ uid k htarget
    refine ⟨fun k' hk' huid => ?_, fun hmemgone => hgone' uid hmemgone k ((hmem uid k).mpr (.inl htarget))⟩
    by_contra herases
    exact hk' (hone' uid k' k ((hmem uid k').mpr (.inr ⟨huid, herases⟩)) ((hmem uid k).mpr (.inl htarget)))
  · intro hkeeps
    have hone' : (x.next e).AtMostOne := by
      intro uid k k' hk hk'
      rcases (hmem uid k).mp hk with htarget | ⟨hold, hnot⟩
      · rcases (hmem uid k').mp hk' with htarget' | ⟨hold', hnot'⟩
        · rw [htarget] at htarget'
          simpa using htarget'
        · by_contra hne
          exact hnot' ((hkeeps uid k htarget).1 k' (Ne.symm hne) hold')
      · rcases (hmem uid k').mp hk' with htarget' | ⟨hold', -⟩
        · by_contra hne
          exact hnot ((hkeeps uid k' htarget').1 k hne hold)
        · exact hone uid k k' hold hold'
    refine ⟨hone', fun uid huid _ => ?_, fun uid huid k hk => ?_⟩
    · obtain ⟨k, hk⟩ := hlinked.next e uid huid
      exact ⟨k, hk, fun k' hk' => hone' uid k' k hk' hk⟩
    · rcases (hmem uid k).mp hk with htarget | ⟨hold, hnot⟩
      · exact (hkeeps uid k htarget).2 huid
      · rcases mem_gone_next huid with hwas | rfl
        · exact hgone uid hwas k hold
        · exact hnot rfl

theorem partition_start (state : P2PState) : (start state).Partition := by
  have hempty : ∀ uid k, uid ∉ (start state).state.links k := by
    intro uid k
    cases k <;> exact AList.notMem_empty uid
  exact ⟨fun uid k _ hk => absurd hk (hempty uid k), fun uid huid => absurd huid (Finset.notMem_empty uid),
    fun uid huid => absurd huid (Finset.notMem_empty uid)⟩

/-- **A run**: all its states are partitions exactly if all its events meet the condition. -/
theorem run_iff {x : Session} (hlinked : x.Linked) (h : x.Partition) (events : List Event) :
    (∀ y ∈ x.run events, y.Partition) ↔ x.AllKeep events := by
  induction events generalizing x with
  | nil => simp [run, AllKeep, h]
  | cons e events ih =>
    rw [run, AllKeep, List.forall_mem_cons, and_iff_right h]
    constructor
    · intro hall
      have hnext : (x.next e).Partition := hall _ (by cases events <;> simp [run])
      exact ⟨(partition_next_iff hlinked h e).mp hnext, (ih (hlinked.next e) hnext).mp hall⟩
    · rintro ⟨hkeeps, hrest⟩
      exact (ih (hlinked.next e) ((partition_next_iff hlinked h e).mpr hkeeps)).mpr hrest

end Session

/-- **The link maps over any events.** They are a partition in every state exactly if every event meets the
condition; and whatever the events, the client of an `onDisconnected` is in none of them behind it. -/
theorem partition_iff (state : P2PState) (events : List Event) :
    ((∀ x ∈ (Session.start state).run events, x.Partition) ↔ (Session.start state).AllKeep events) ∧
      ∀ uid k, uid ∉ (((Session.start state).after events).next (.onDisconnected uid)).state.links k := by
  refine ⟨Session.run_iff ?_ (Session.partition_start state) events, fun uid k => ?_⟩
  · exact fun uid huid => absurd huid (Finset.notMem_empty uid)
  · rw [Session.state_next, mem_links_step]
    simp [Event.target, Event.Erases]

/-! ### A client that changes its mind -/

/-- A machine that resolves nothing. -/
def plainEnvironment : P2PEnvironment := ⟨id, 9001, ⟨[7]⟩, id, fun _ => true⟩

/-- A node that looks for no more peers. -/
def settledState : P2PState where
  inLinks := ∅
  outLinks := ∅
  notAcceptingConnP2PLinks := ∅
  noneP2PLinks := ∅
  knownPeers := []
  myMinimaAddress := ⟨[49], [49], 9001⟩
  ipReqSecret := ⟨[]⟩
  acceptingInLinks := true
  maxNumNoneP2PConnections := 5
  maxNumP2PConnections := 3
  doingDiscoveryConnection := false
  hostSet := true

/-- A client that connects to the node. -/
def caller : NIOClientInfo := ⟨[65], [50], 9001, true⟩

/-- A greeting. -/
def greetingOf (accepting : Bool) : P2PGreeting := ⟨9001, accepting, [], [], 0, 5, []⟩

/-- The client connects, greets as one that accepts links, and then as one that does not. -/
def twoGreetings : List Event :=
  [.onConnected plainEnvironment true caller,
    .processGreeting plainEnvironment (greetingOf true) (some caller) false,
    .processGreeting plainEnvironment (greetingOf false) (some caller) false]

/-- **A client in two maps**: it stays among the links that it was put in first. -/
theorem twoGreetings_not_partition :
    caller.uid ∈ ((Session.start settledState).after twoGreetings).state.links .inLinks ∧
      caller.uid ∈ ((Session.start settledState).after twoGreetings).state.links .notAccepting ∧
      caller.uid ∈ ((Session.start settledState).after twoGreetings).connected ∧
      caller.uid ∉ ((Session.start settledState).after twoGreetings).requested ∧
      ¬ ∀ x ∈ (Session.start settledState).run twoGreetings, x.Partition := by
  have hin : caller.uid ∈ ((Session.start settledState).after twoGreetings).state.links .inLinks := by decide
  have hnot : caller.uid ∈ ((Session.start settledState).after twoGreetings).state.links .notAccepting := by
    decide
  refine ⟨hin, hnot, by decide, by decide, fun h => ?_⟩
  have hlast := h ((Session.start settledState).after twoGreetings) (by
    simp [twoGreetings, Session.run, Session.after])
  cases hlast.1 _ _ _ hin hnot

end SwapLinksFunctions

end Minima
