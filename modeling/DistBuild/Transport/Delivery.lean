import DistBuild.Transport.Integrity
import DistBuild.Transport.Trip

/-!
# Transport/Delivery — every message of a session, through its writer and the wire format

    send_msg m ─▸ SerializeToString ─▸ frame ─strand, writer─▸ wire ─▸ receive_msg ─▸ m.delivered

A reader that takes frames off the wire gets the payloads, whatever it makes of them
(`receiveMsgs_of_payloads`), so the peer handles the `delivered` form of each message, once and in
the order in which they were queued (`client_messages_delivered`, `server_messages_delivered`).
-/

namespace DistBuild

open Wire

/-- What the server handles for `m`. -/
def ClientContent.delivered (rt : WireRuntime) (m : ClientContent) : ClientContent :=
  (m.received rt).object.getD .notSet

/-- What the client handles for `m`. -/
def ServerContent.delivered (rt : WireRuntime) (m : ServerContent) : ServerContent :=
  (m.received rt).object.getD .notSet

theorem ClientContent.object_received (rt : WireRuntime) (m : ClientContent) :
    (m.received rt).object = some (m.delivered rt) := by
  obtain ⟨m', hm'⟩ :=
    Option.isSome_iff_exists.mp (show (m.received rt).object.isSome from m.legible)
  rw [ClientContent.delivered, hm']
  rfl

theorem ServerContent.object_received (rt : WireRuntime) (m : ServerContent) :
    (m.received rt).object = some (m.delivered rt) := by
  obtain ⟨m', hm'⟩ :=
    Option.isSome_iff_exists.mp (show (m.received rt).object.isSome from m.legible)
  rw [ServerContent.delivered, hm']
  rfl

theorem ClientContent.delivered_of_utf8 {rt : WireRuntime} {m : ClientContent} (h : m.Utf8 rt) :
    m.delivered rt = m := by
  rw [ClientContent.delivered, m.received_iff.mpr h]
  rfl

theorem ServerContent.delivered_of_utf8 {rt : WireRuntime} {m : ServerContent} (h : m.Utf8 rt) :
    m.delivered rt = m := by
  rw [ServerContent.delivered, m.received_iff.mpr h]
  rfl

namespace Writer

variable {Msg Obj : Type}

/-- **Messages are the payloads, parsed**, as long as they all parse. -/
theorem receiveMsgs_of_payloads {parse : Str → Option Obj} (n : ℕ) (stream : Str)
    (h : ∀ payload ∈ (receiveMsgs some n stream).1, (parse payload).isSome = true) :
    (receiveMsgs parse n stream).1 = (receiveMsgs some n stream).1.filterMap parse := by
  induction n generalizing stream with
  | zero => rfl
  | succ n ih =>
    rw [receiveMsgs] at h
    rw [receiveMsgs, receiveMsgs]
    cases hread : readFrame stream with
    | none => simp [receiveMsg, hread]
    | some r =>
      have hpayload : receiveMsg some stream = some r := by simp [receiveMsg, hread]
      rw [hpayload] at h
      obtain ⟨hfirst, hrest⟩ := List.forall_mem_cons.mp h
      obtain ⟨obj, hobj⟩ := Option.isSome_iff_exists.mp hfirst
      have hparsed : receiveMsg parse stream = some (obj, r.2) := by
        simp [receiveMsg, hread, hobj]
      rw [hpayload, hparsed]
      dsimp only
      rw [List.filterMap_cons_some hobj, ih r.2 hrest]

variable {w : WriterLoop} {serialize : Msg → Str} {parse : Str → Option Obj} {deliver : Msg → Obj}
  {acts : List (Action Msg)} {s : State Msg}

/-- What the peer has received so far, and in the end. -/
structure DeliversAs (parse : Str → Option Obj) (deliver : Msg → Obj) (s : State Msg) : Prop where
  received : ∀ n, (receiveMsgs parse n s.wire).1 <+: s.queued.map deliver
  /-- When nothing is left to run or to write, each message sent is delivered once. -/
  quiet : s.tasks = [] → s.inFlight = [] →
    s.queued.Perm s.sent ∧ (receiveMsgs parse s.queued.length s.wire).1 = s.queued.map deliver

/-- A codec that changes what it carries delivers what it makes of it. -/
theorem delivers_as (hw : w.Pops) (hrun : runFrom (step w serialize) acts start = some s)
    (hok : ∀ a ∈ acts, a.Succeeds) (hsize : ∀ msg ∈ s.sent, (serialize msg).length < 2 ^ 32)
    (hparse : ∀ msg ∈ s.sent, parse (serialize msg) = some (deliver msg)) :
    DeliversAs parse deliver s := by
  obtain ⟨stage, hstaged, -, hwire⟩ := reachable_intact hw hrun hok
  have hsent := reachable_accounted hrun
  have hqueued : ∀ msg ∈ s.queued, msg ∈ s.sent := fun msg hmsg =>
    hsent.subset (List.mem_append_left _ hmsg)
  have hframes : framesOf serialize s.queued = framesOf id (s.queued.map serialize) := by
    rw [framesOf, framesOf, List.map_map]
    rfl
  have hsizes : ∀ payload ∈ s.queued.map serialize, (id payload).length < 2 ^ 32 := by
    intro payload hpayload
    obtain ⟨msg, hmsg, rfl⟩ := List.mem_map.mp hpayload
    exact hsize msg (hqueued msg hmsg)
  have hdeliver : (s.queued.map serialize).filterMap parse = s.queued.map deliver := by
    rw [List.filterMap_map, ← List.filterMap_eq_map]
    exact List.filterMap_congr fun msg hmsg => hparse msg (hqueued msg hmsg)
  have hprefix : s.wire <+: framesOf id (s.queued.map serialize) := hframes ▸ ⟨_, hwire⟩
  have hpayloads : ∀ n, (receiveMsgs some n s.wire).1 <+: s.queued.map serialize :=
    receiveMsgs_prefix (fun _ => rfl) hsizes hprefix
  have hmsgs : ∀ n, (receiveMsgs parse n s.wire).1
      = (receiveMsgs some n s.wire).1.filterMap parse := by
    refine fun n => receiveMsgs_of_payloads n s.wire fun payload hpayload => ?_
    obtain ⟨msg, hmsg, rfl⟩ := List.mem_map.mp ((hpayloads n).subset hpayload)
    rw [hparse msg (hqueued msg hmsg)]
    rfl
  refine ⟨fun n => ?_, fun htasks hfly => ?_⟩
  · rw [hmsgs n, ← hdeliver]
    exact (hpayloads n).filterMap parse
  · obtain rfl := hstaged.idle_of_quiet htasks hfly
    have hall : s.wire = framesOf id (s.queued.map serialize) :=
      ((List.append_nil _).symm.trans hwire).trans hframes
    have hnone : s.pushes = [] := by rw [State.pushes, htasks, List.filterMap_nil]
    rw [Accounted, hnone, List.append_nil] at hsent
    have hfull := @receiveMsgs_frames _ id some (fun _ => rfl) _ hsizes []
    rw [List.append_nil, ← hall, List.length_map] at hfull
    refine ⟨hsent, ?_⟩
    rw [hmsgs, hfull, hdeliver]

end Writer

/-- **What a client sends is what the server handles**, in order and each message once, up to the
first string of a message that is no UTF-8. -/
theorem client_messages_delivered (rt : WireRuntime) (acts : List (Writer.Action ClientContent))
    (s : Writer.State ClientContent)
    (hrun : runFrom (Writer.step Writer.clientLoop (serializeToString rt (clientMessage rt))) acts
      Writer.start = some s)
    (hok : ∀ a ∈ acts, a.Succeeds)
    (hsize : ∀ m ∈ s.sent, (clientMessage rt).byteSize rt m ≤ maxSize) :
    Writer.DeliversAs (fun payload => ((clientMessage rt).read rt payload).object)
      (ClientContent.delivered rt) s := by
  refine Writer.delivers_as Writer.clientLoop_pops hrun hok (fun m hm => ?_) fun m hm => ?_
  · rw [serializeToString_eq (hsize m hm),
      MessageType.length_write (MessageType.honest (hsize m hm))]
    exact (hsize m hm).trans_lt (by decide)
  · rw [serializeToString_eq (hsize m hm), read_clientMessage (hsize m hm)]
    exact m.object_received rt

/-- **What a server session sends is what its client handles**, likewise. -/
theorem server_messages_delivered (rt : WireRuntime) (acts : List (Writer.Action ServerContent))
    (s : Writer.State ServerContent)
    (hrun : runFrom (Writer.step Writer.serverLoop (serializeToString rt (serverMessage rt))) acts
      Writer.start = some s)
    (hok : ∀ a ∈ acts, a.Succeeds)
    (hsize : ∀ m ∈ s.sent, (serverMessage rt).byteSize rt m ≤ maxSize) :
    Writer.DeliversAs (fun payload => ((serverMessage rt).read rt payload).object)
      (ServerContent.delivered rt) s := by
  refine Writer.delivers_as Writer.serverLoop_pops hrun hok (fun m hm => ?_) fun m hm => ?_
  · rw [serializeToString_eq (hsize m hm),
      MessageType.length_write (MessageType.honest (hsize m hm))]
    exact (hsize m hm).trans_lt (by decide)
  · rw [serializeToString_eq (hsize m hm), read_serverMessage (hsize m hm)]
    exact m.object_received rt

/-- A confirmation, and the end of a session. -/
def confirmAndAbort : List (Writer.Action ServerContent) :=
  .send (.sessionConfirmed ⟨str "s", [str "/a"]⟩) :: .run :: .run
    :: .send (.sessionAbort ⟨str "s", []⟩)
    :: List.replicate 13 (.transfer 0) ++ [.complete 0, .run, .run]
    ++ List.replicate 9 (.transfer 0) ++ [.complete 0, .run]

/-- The client gets both. -/
theorem confirmAndAbort_delivered :
    ∃ s : Writer.State ServerContent,
      (Writer.receiveMsgs (fun payload => ((serverMessage base128).read base128 payload).object) 2
        s.wire).1 = [.sessionConfirmed ⟨str "s", [str "/a"]⟩, .sessionAbort ⟨str "s", []⟩] := by
  have hrun : (runFrom (Writer.step Writer.serverLoop
      (serializeToString base128 (serverMessage base128))) confirmAndAbort
        Writer.start).map (fun s =>
        decide (s.queued.length = 2 ∧ s.tasks = [] ∧ s.inFlight = []
          ∧ s.queued.map (ServerContent.delivered base128)
            = [.sessionConfirmed ⟨str "s", [str "/a"]⟩, .sessionAbort ⟨str "s", []⟩]
          ∧ ∀ m ∈ s.sent, (serverMessage base128).byteSize base128 m ≤ maxSize)) = some true := by
    decide +kernel
  obtain ⟨s, hs, hfin⟩ := Option.map_eq_some_iff.mp hrun
  obtain ⟨hlen, htasks, hfly, hdelivered, hsize⟩ := of_decide_eq_true hfin
  have hquiet := (server_messages_delivered base128 _ s hs (by decide) hsize).quiet htasks hfly
  rw [hlen, hdelivered] at hquiet
  exact ⟨s, hquiet.2⟩

end DistBuild
