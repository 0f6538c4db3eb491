import DistBuild.Upload.Channel

/-!
# Upload/RoundTrip — the upload arrives exactly when every file can be delivered

    sending f ──(short buffer)──▸ acknowledged ──▸ sending the next ──▸ … ──▸ done
        ├────(last buffer full)────────▸ stuck: nothing in flight, `f` unfinished
        ├────(server file not there)───▸ failed: thrown, or aborted
    ignored f  (its server file was uploaded before)  ──▸ stuck: no chunk is answered

A run is in one of these phases whatever the schedule (`Phase.step`), and comes to rest
(`settles_send`).  At rest it is done, or stuck or failed at a file that cannot be delivered
(`Phase.atRest`).
-/

namespace DistBuild

open Channel

variable (sha1 : Str → Str) (fs : Str → Option Str) (w : Str) (sessionUuid : SessionId)

/-! ## The phases -/

/-- The table entry of a required file, with its true size and digest. -/
def Entry (u : UploadState) (f : Str) (v : FileStateView) (content : Str) : Prop :=
  u.files f = some v ∧ fs f = some content ∧ v.serverFilePath = cnvtClientToServerPath w f
    ∧ v.fileSzBytes.toNat = content.length ∧ v.fileSha1 = sha1 content

/-- The messages of the files `fs` names, in order. -/
def messagesOf (names : List Str) : List FileChunk :=
  names.flatMap fun f => fileMessages sessionUuid f ((fs f).getD [])

variable (names : List Str) (d₀ : Disk)

/-- `f` was acknowledged: it ended short, and its server file is what the disk `d₀` of the start
lets it be. -/
def Acked (u : UploadState) (f : Str) : Prop :=
  ∃ v content t, Entry sha1 fs w u f v content ∧ v.fileStatus = .available
    ∧ u.disk.files v.serverFilePath = received d₀ v.serverFilePath content
    ∧ u.transfers v.serverFilePath = some t ∧ t.isFinished = true ∧ EndsShort content

/-- `g` is still to be sent, where the files `touched` were: unless it is one of them it is not
AVAILABLE, and unless it has the server file of one of them nothing has come for it. -/
def Waiting (u : UploadState) (touched : List Str) (g : Str) : Prop :=
  ∃ v content, Entry sha1 fs w u g v content ∧ (g ∉ touched → v.fileStatus ≠ .available)
    ∧ (cnvtClientToServerPath w g ∉ touched.map (cnvtClientToServerPath w) →
      u.transfers (cnvtClientToServerPath w g) = none
        ∧ u.disk.files (cnvtClientToServerPath w g) = d₀.files (cnvtClientToServerPath w g))

/-- What holds in every phase but the last: `done` were acknowledged, at server files of their own,
`rest` are to come, both handlers run. -/
structure Steady (s : Channel) (done touched rest : List Str) (idx : ℕ) : Prop where
  client : s.client = ⟨sessionUuid, names, idx⟩
  handling : s.handling = true
  serving : s.serving = true
  writable : s.server.disk.writable = d₀.writable
  acked : ∀ f ∈ done, Acked sha1 fs w d₀ s.server f
  distinct : (done.map (cnvtClientToServerPath w)).Nodup
  waiting : ∀ g ∈ rest, Waiting sha1 fs w d₀ s.server touched g

/-- The file `f` is on its way: the server has stored `pre`, the messages of `post` are in
flight. -/
structure Sending (s : Channel) (done : List Str) (f : Str) (rest : List Str) (content : Str)
    (pre post : List Str) : Prop where
  steady : Steady sha1 fs w sessionUuid names d₀ s done (done ++ [f]) rest (done.length + 1)
  names_eq : names = done ++ f :: rest
  fresh : cnvtClientToServerPath w f ∉ done.map (cnvtClientToServerPath w)
  blocks_eq : fileBlocks content = pre ++ post
  full : ∀ b ∈ pre, b.length = chunkSize
  entry : ∃ v, Entry sha1 fs w s.server f v content ∧ v.fileStatus ≠ .available
    ∧ Receiving sessionUuid s.server v.serverFilePath pre
  unwritten : d₀.writable (cnvtClientToServerPath w f) = false →
    s.server.disk.files (cnvtClientToServerPath w f) = d₀.files (cnvtClientToServerPath w f)
  toServer : s.toServer = chunkMessages sessionUuid f (UInt64.ofNat (pre.length + 1))
    (UInt64.ofNat pre.flatten.length) post
  toClient : s.toClient = []
  sent : s.sent = messagesOf fs sessionUuid (done ++ [f])

/-- The file `f` is on its way to the server file of one of `done`: no chunk of it is answered. -/
structure Ignored (s : Channel) (done : List Str) (f : Str) (rest : List Str)
    (msgs : List FileChunk) : Prop where
  steady : Steady sha1 fs w sessionUuid names d₀ s done done (f :: rest) (done.length + 1)
  names_eq : names = done ++ f :: rest
  taken : cnvtClientToServerPath w f ∈ done.map (cnvtClientToServerPath w)
  toServer : s.toServer = msgs
  ours : ∀ m ∈ msgs, m.filename = f ∧ m.sessionId = sessionUuid
  toClient : s.toClient = []
  sent : s.sent = messagesOf fs sessionUuid (done ++ [f])

/-- All of `done` is acknowledged, the last acknowledgement still unread. -/
structure Acknowledged (s : Channel) (done rest : List Str) : Prop where
  steady : Steady sha1 fs w sessionUuid names d₀ s done done rest done.length
  names_eq : names = done ++ rest
  toServer : s.toServer = []
  toClient : ∃ m, s.toClient = [.fileUpComplete m] ∧ m.sessionId = sessionUuid ∧ m.success = true
  sent : s.sent = messagesOf fs sessionUuid done

/-- Everything is sent and read. -/
structure Done (s : Channel) : Prop where
  steady : Steady sha1 fs w sessionUuid names d₀ s names names [] names.length
  toServer : s.toServer = []
  toClient : s.toClient = []
  sent : s.sent = messagesOf fs sessionUuid names

/-- What a required file needs to arrive, as far as path texts tell files apart. -/
structure CanArrive : Prop where
  distinct : (names.map (cnvtClientToServerPath w)).Nodup
  endsShort : ∀ f ∈ names, ∀ content, fs f = some content → EndsShort content
  lands : ∀ f ∈ names, ∀ content, fs f = some content →
    received d₀ (cnvtClientToServerPath w f) content = some content

/-- The server has given up on a file that cannot be delivered. -/
structure Failed (s : Channel) : Prop where
  toServer : s.toServer = []
  toClient : s.toClient = []
    ∨ s.handling = true ∧ ∃ id, s.toClient = [.sessionAbort id]
  missing : ∃ f ∈ names, ¬ Arrived fs s.server f
  undelivered : ¬ CanArrive fs w names d₀

inductive Phase (s : Channel) : Prop
  | sending {done f rest content pre post}
      (h : Sending sha1 fs w sessionUuid names d₀ s done f rest content pre post)
  | ignored {done f rest msgs} (h : Ignored sha1 fs w sessionUuid names d₀ s done f rest msgs)
  | acknowledged {done rest} (h : Acknowledged sha1 fs w sessionUuid names d₀ s done rest)
  | done (h : Done sha1 fs w sessionUuid names d₀ s)
  | failed (h : Failed fs w names d₀ s)

/-! ## What a step of one file leaves of the others -/

variable {sha1 fs w sessionUuid names d₀}

theorem Entry.of_agree {u u' : UploadState} {g content : Str} {v : FileStateView}
    (h : Entry sha1 fs w u g v content) (hg : u'.files g = u.files g) :
    Entry sha1 fs w u' g v content :=
  ⟨hg.trans h.1, h.2⟩

/-- The other files keep what they have. -/
theorem Acked.of_agree {u u' : UploadState} {f g : Str} (h : Acked sha1 fs w d₀ u g)
    (ha : AgreeOff f (cnvtClientToServerPath w f) u u')
    (hne : cnvtClientToServerPath w g ≠ cnvtClientToServerPath w f) : Acked sha1 fs w d₀ u' g := by
  obtain ⟨v, content, t, he, hst, hd, ht, hfin, hshort⟩ := h
  have hpath : v.serverFilePath ≠ cnvtClientToServerPath w f := he.2.2.1 ▸ hne
  have hname : g ≠ f := fun heq => hne (congrArg _ heq)
  exact ⟨v, content, t, he.of_agree (ha.files g hname), hst, (ha.disk _ hpath).trans hd,
    (ha.transfers _ hpath).trans ht, hfin, hshort⟩

/-- So do those to come, among them `f` itself again. -/
theorem Waiting.of_agree {u u' : UploadState} {touched : List Str} {f g : Str}
    (h : Waiting sha1 fs w d₀ u touched g) (ha : AgreeOff f (cnvtClientToServerPath w f) u u')
    (hf : f ∈ touched) (hself : ∃ v content, Entry sha1 fs w u' f v content) :
    Waiting sha1 fs w d₀ u' touched g := by
  have hmem : cnvtClientToServerPath w f ∈ touched.map (cnvtClientToServerPath w) :=
    List.mem_map_of_mem hf
  by_cases hg : g = f
  · subst hg
    obtain ⟨v, content, he⟩ := hself
    exact ⟨v, content, he, fun hnot => absurd hf hnot, fun hnot => absurd hmem hnot⟩
  · obtain ⟨v, content, he, hst, hnone⟩ := h
    refine ⟨v, content, he.of_agree (ha.files g hg), hst, fun hnot => ?_⟩
    have hne : cnvtClientToServerPath w g ≠ cnvtClientToServerPath w f := by
      intro heq
      rw [heq] at hnot
      exact hnot hmem
    obtain ⟨ht, hd⟩ := hnone hnot
    exact ⟨(ha.transfers _ hne).trans ht, (ha.disk _ hne).trans hd⟩

theorem Steady.of_agree {s : Channel} {done touched rest : List Str} {f : Str} {idx : ℕ}
    {u' : UploadState} (h : Steady sha1 fs w sessionUuid names d₀ s done touched rest idx)
    (hfresh : cnvtClientToServerPath w f ∉ done.map (cnvtClientToServerPath w)) (hf : f ∈ touched)
    (ha : AgreeOff f (cnvtClientToServerPath w f) s.server u')
    (hself : ∃ v content, Entry sha1 fs w u' f v content) {s' : Channel}
    (hclient : s'.client = s.client) (hhandling : s'.handling = s.handling)
    (hserving : s'.serving = s.serving) (hserver : s'.server = u') :
    Steady sha1 fs w sessionUuid names d₀ s' done touched rest idx where
  client := hclient.trans h.client
  handling := hhandling.trans h.handling
  serving := hserving.trans h.serving
  writable := by rw [hserver, ha.writable, h.writable]
  acked g hg := by
    have hne : cnvtClientToServerPath w g ≠ cnvtClientToServerPath w f := by
      intro heq
      rw [← heq] at hfresh
      exact hfresh (List.mem_map_of_mem hg)
    exact hserver ▸ (h.acked g hg).of_agree ha hne
  distinct := h.distinct
  waiting g hg := hserver ▸ (h.waiting g hg).of_agree ha hf hself

/-! ## One step of each phase -/

variable {s : Channel} {done rest : List Str} {f content : Str} {pre post : List Str} {b : Str}
  {msgs : List FileChunk}

/-- The head of the messages in flight is the awaited chunk. -/
theorem Sending.toServer_cons
    (h : Sending sha1 fs w sessionUuid names d₀ s done f rest content pre (b :: post)) :
    s.toServer = nextChunk sessionUuid f pre b :: chunkMessages sessionUuid f
      (UInt64.ofNat ((pre ++ [b]).length + 1)) (UInt64.ofNat (pre ++ [b]).flatten.length) post := by
  rw [h.toServer]
  simp [chunkMessages, nextChunk, UInt64.ofNat_add]

theorem Sending.length_lt
    (h : Sending sha1 fs w sessionUuid names d₀ s done f rest content pre (b :: post)) :
    (pre ++ [b]).flatten.length < 2 ^ 64 := by
  obtain ⟨v, he, _⟩ := h.entry
  have hlen : (pre ++ [b]).flatten.length ≤ content.length := by
    rw [← flatten_fileBlocks content, h.blocks_eq]
    simp
  have hsz : content.length < 2 ^ 64 := he.2.2.2.1 ▸ v.fileSzBytes.toNat_lt
  omega

/-- Where the server file cannot be opened it stays what it was at the start. -/
theorem Sending.received_eq
    (h : Sending sha1 fs w sessionUuid names d₀ s done f rest content pre post) (stored : Str) :
    received s.server.disk (cnvtClientToServerPath w f) stored
      = received d₀ (cnvtClientToServerPath w f) stored :=
  received_congr h.steady.writable h.unwritten stored

/-- **A full buffer**: the server stores it, and the file stays on its way. -/
theorem Sending.serve_full
    (h : Sending sha1 fs w sessionUuid names d₀ s done f rest content pre (b :: post))
    (hb : ¬ b.length < chunkSize) :
    ∃ t, Channel.step sha1 fs .server s = some t
      ∧ Sending sha1 fs w sessionUuid names d₀ t done f rest content (pre ++ [b]) post := by
  obtain ⟨v, he, hst, hrec⟩ := h.entry
  have hpath : v.serverFilePath = cnvtClientToServerPath w f := he.2.2.1
  obtain ⟨u', hstep, hfiles, hrec', hd, ha⟩ :=
    processFileChunk_stored sha1 he.1 hrec hb h.length_lt
  have hid : s.client.sessionUuid = sessionUuid := by rw [h.steady.client]
  refine ⟨_, Channel.step_server sha1 fs h.steady.serving h.toServer_cons, ?_⟩
  rw [Channel.serve_of_value sha1 _ (by rw [hid]; exact hstep)]
  have hle : b.length ≤ chunkSize :=
    length_le_of_mem_fileBlocks (show b ∈ fileBlocks content by simp [h.blocks_eq])
  have he' : Entry sha1 fs w u' f v content := he.of_agree (by rw [hfiles])
  exact
    { steady := h.steady.of_agree h.fresh (by simp) (hpath ▸ ha) ⟨v, content, he'⟩ rfl rfl rfl rfl
      names_eq := h.names_eq
      fresh := h.fresh
      blocks_eq := by simp [h.blocks_eq]
      full := fun c hc => by
        rcases List.mem_append.mp hc with hc | hc
        · exact h.full c hc
        · rw [List.mem_singleton.mp hc]
          omega
      entry := ⟨v, he', hst, hrec'⟩
      unwritten := fun hw => by
        have hclosed := h.received_eq (pre ++ [b]).flatten
        rw [hpath] at hd
        rw [hd, hclosed, received, hw, if_neg Bool.false_ne_true]
      toServer := rfl
      toClient := by simp [h.toClient]
      sent := h.sent }

/-- The server path of `f` does not hold it in the end: it cannot be delivered. -/
theorem Sending.undelivered
    (h : Sending sha1 fs w sessionUuid names d₀ s done f rest content pre post)
    (hlost : received d₀ (cnvtClientToServerPath w f) content ≠ some content) :
    ¬ CanArrive fs w names d₀ := by
  obtain ⟨v, he, -⟩ := h.entry
  exact fun hdel => hlost (hdel.lands f (by simp [h.names_eq]) content he.2.1)

/-- **A short buffer**: the file is acknowledged, or given up. -/
theorem Sending.serve_short
    (h : Sending sha1 fs w sessionUuid names d₀ s done f rest content pre (b :: post))
    (hb : b.length < chunkSize) :
    ∃ t, Channel.step sha1 fs .server s = some t
      ∧ (Acknowledged sha1 fs w sessionUuid names d₀ t (done ++ [f]) rest
        ∨ Failed fs w names d₀ t) := by
  obtain ⟨rfl, hshort⟩ := fileBlocks_short h.blocks_eq hb
  obtain ⟨v, he, hst, hrec⟩ := h.entry
  have hpath : v.serverFilePath = cnvtClientToServerPath w f := he.2.2.1
  have hcontent : (pre ++ [b]).flatten = content := by
    rw [← flatten_fileBlocks content, h.blocks_eq]
  obtain ⟨o, marks, replies, u', t, hstep, hlast, hd, ht, hfin, ha⟩ :=
    processFileChunk_last sha1 he.1 hrec hb hcontent
  have hid : s.client.sessionUuid = sessionUuid := by rw [h.steady.client]
  have hmem : f ∈ names := by simp [h.names_eq]
  rw [hpath, h.received_eq] at hlast hd
  refine ⟨_, Channel.step_server sha1 fs h.steady.serving h.toServer_cons, ?_⟩
  unfold Channel.serve
  rw [hid, hstep]
  have hnot {v'} (hv : u'.files f = some v') (hne : v'.fileStatus ≠ .available) :
      ¬ Arrived fs u' f := by
    rintro ⟨v'', -, -, hv'', -, hav, -⟩
    obtain rfl := Option.some.inj (hv.symm.trans hv'')
    exact hne hav
  cases hlast with
  | threw hnone hv =>
    refine Or.inr ⟨rfl, Or.inl h.toClient, ⟨f, hmem, hnot hv hst⟩, h.undelivered ?_⟩
    rw [hnone]
    exact (Option.some_ne_none content).symm
  | @aborted c hc hsize hv =>
    refine Or.inr ⟨rfl, Or.inr ⟨h.steady.handling, sessionUuid, ?_⟩,
      ⟨f, hmem, hnot hv (by simp)⟩, h.undelivered ?_⟩
    · simp only [h.toClient, List.map_nil, List.append_nil, List.nil_append, Bool.false_eq_true,
        if_false]
    · rw [hc]
      rintro ⟨⟩
      exact hsize he.2.2.2.1
  | @acknowledged c hc hsize hv =>
    refine Or.inl ?_
    have he' : Entry sha1 fs w u' f { v with fileStatus := .available } content := ⟨hv, he.2⟩
    have hsteady : Steady sha1 fs w sessionUuid names d₀ { s with server := u' } done
        (done ++ [f]) rest (done.length + 1) :=
      h.steady.of_agree h.fresh (by simp) (hpath ▸ ha) ⟨_, content, he'⟩ rfl rfl rfl rfl
    exact
      { steady :=
          { client := by simpa using hsteady.client
            handling := hsteady.handling
            serving := hsteady.serving
            writable := hsteady.writable
            acked := fun g hg => by
              rcases List.mem_append.mp hg with hg | hg
              · exact hsteady.acked g hg
              · obtain rfl := List.mem_singleton.mp hg
                exact ⟨_, content, t, he', rfl, by rw [hpath]; exact hd, ht, hfin, hshort⟩
            distinct := by
              rw [List.map_append, List.map_singleton]
              exact hsteady.distinct.append (List.nodup_singleton _)
                (List.disjoint_singleton.mpr h.fresh)
            waiting := hsteady.waiting }
        names_eq := by simp [h.names_eq]
        toServer := rfl
        toClient := ⟨fileUpComplete sessionUuid (nextChunk sessionUuid f pre b),
          by simp [h.toClient], rfl, rfl⟩
        sent := h.sent }

/-- **A chunk that is not looked at**: its transfer was finished by another file. -/
theorem Ignored.serve {m : FileChunk}
    (h : Ignored sha1 fs w sessionUuid names d₀ s done f rest (m :: msgs)) :
    ∃ t, Channel.step sha1 fs .server s = some t
      ∧ Ignored sha1 fs w sessionUuid names d₀ t done f rest msgs := by
  obtain ⟨hname, hsession⟩ := h.ours m List.mem_cons_self
  obtain ⟨g, hg, hpath⟩ := List.mem_map.mp h.taken
  obtain ⟨v, _, he, -⟩ := h.steady.waiting f List.mem_cons_self
  obtain ⟨v', _, t, he', -, -, ht, hfin, -⟩ := h.steady.acked g hg
  have hsame : v'.serverFilePath = v.serverFilePath := by rw [he'.2.2.1, he.2.2.1, hpath]
  have hid : s.client.sessionUuid = sessionUuid := by rw [h.steady.client]
  refine ⟨_, Channel.step_server sha1 fs h.steady.serving h.toServer, ?_⟩
  rw [Channel.serve_of_value sha1 msgs (by
    rw [hid]
    exact processFileChunk_finished sha1 (by rw [hname]; exact he.1) hsession (hsame ▸ ht) hfin)]
  exact
    { steady := ⟨h.steady.client, h.steady.handling, h.steady.serving, h.steady.writable,
        h.steady.acked, h.steady.distinct, h.steady.waiting⟩
      names_eq := h.names_eq
      taken := h.taken
      toServer := rfl
      ours := fun m hm => h.ours m (List.mem_cons_of_mem _ hm)
      toClient := by simp [h.toClient]
      sent := h.sent }

/-- **The client reads an acknowledgement** (or starts): the next file is on its way. -/
theorem send_next
    (h : Steady sha1 fs w sessionUuid names d₀ s done done (f :: rest) done.length)
    (hn : names = done ++ f :: rest) (hts : s.toServer = []) (htc : s.toClient = [])
    (hsent : s.sent = messagesOf fs sessionUuid done) :
    (∃ content, Sending sha1 fs w sessionUuid names d₀ (Channel.send fs s) done f rest content []
        (fileBlocks content))
      ∨ ∃ msgs, Ignored sha1 fs w sessionUuid names d₀ (Channel.send fs s) done f rest msgs := by
  obtain ⟨v, content, he, hst, hnone⟩ := h.waiting f List.mem_cons_self
  have hget : names[done.length]? = some f := by simp [hn]
  have hreq : sendRequiredFile fs s.client
      = (fileMessages sessionUuid f content, ⟨sessionUuid, names, done.length + 1⟩) := by
    simp [sendRequiredFile, h.client, hget, he.2.1]
  have hsent' : (Channel.send fs s).sent = messagesOf fs sessionUuid (done ++ [f]) := by
    simp [Channel.send, hreq, hsent, messagesOf, he.2.1]
  have hclient : (Channel.send fs s).client = ⟨sessionUuid, names, done.length + 1⟩ := by
    simp [Channel.send, hreq]
  by_cases hpath : cnvtClientToServerPath w f ∈ done.map (cnvtClientToServerPath w)
  · refine Or.inr ⟨fileMessages sessionUuid f content, ?_⟩
    exact
      { steady := { h with client := hclient }
        names_eq := hn
        taken := hpath
        toServer := by simp [Channel.send, hreq, hts]
        ours := fun m hm => mem_fileMessages hm
        toClient := htc
        sent := hsent' }
  · obtain ⟨hopen, hdisk⟩ := hnone hpath
    have hnew : f ∉ done := fun hf => hpath (List.mem_map_of_mem hf)
    refine Or.inl ⟨content, ?_⟩
    exact
      { steady :=
          { h with
            client := hclient
            waiting := fun g hg => by
              obtain ⟨v', content', he', hst', hnone'⟩ := h.waiting g (List.mem_cons_of_mem _ hg)
              refine ⟨v', content', he', fun hnot => hst' fun hmem => hnot ?_, fun hnot =>
                hnone' fun hmem => hnot ?_⟩
              · exact List.mem_append_left _ hmem
              · rw [List.map_append]
                exact List.mem_append_left _ hmem }
        names_eq := hn
        fresh := hpath
        blocks_eq := rfl
        full := fun b hb => by cases hb
        entry := ⟨v, he, hst hnew, receiving_nil sessionUuid (by rw [he.2.2.1]; exact hopen)⟩
        unwritten := fun _ => hdisk
        toServer := by simp [Channel.send, hreq, hts, fileMessages_eq]
        toClient := htc
        sent := hsent' }

/-- After the last file the client has nothing to send. -/
theorem send_done
    (h : Steady sha1 fs w sessionUuid names d₀ s names names [] names.length)
    (hts : s.toServer = []) (htc : s.toClient = [])
    (hsent : s.sent = messagesOf fs sessionUuid names) :
    Done sha1 fs w sessionUuid names d₀ (Channel.send fs s) := by
  have hreq : sendRequiredFile fs s.client = ([], s.client) := by
    simp [sendRequiredFile, h.client]
  exact
    { steady := { h with client := by simpa [Channel.send, hreq] using h.client }
      toServer := by simp [Channel.send, hreq, hts]
      toClient := htc
      sent := by simp [Channel.send, hreq, hsent] }

theorem Acknowledged.step_client
    (h : Acknowledged sha1 fs w sessionUuid names d₀ s done rest) :
    Channel.step sha1 fs .client s = some (Channel.send fs { s with toClient := [] }) := by
  obtain ⟨m, hm, hid, hok⟩ := h.toClient
  rw [Channel.step_client sha1 fs h.steady.handling hm]
  simp [Channel.reply, h.steady.client, hid, hok]

/-- The client sends the next file, or it is done: the state before it sends. -/
theorem phase_send
    (h : Steady sha1 fs w sessionUuid names d₀ s done done rest done.length)
    (hn : names = done ++ rest) (hts : s.toServer = []) (htc : s.toClient = [])
    (hsent : s.sent = messagesOf fs sessionUuid done) :
    Phase sha1 fs w sessionUuid names d₀ (Channel.send fs s) := by
  cases rest with
  | nil =>
    obtain rfl : names = done := by simpa using hn
    exact .done (send_done h hts htc hsent)
  | cons f rest =>
    rcases send_next h hn hts htc hsent with ⟨content, hsending⟩ | ⟨msgs, hignored⟩
    · exact .sending hsending
    · exact .ignored hignored

/-- Reading the acknowledgement leaves a state in which the client sends. -/
theorem Acknowledged.read (h : Acknowledged sha1 fs w sessionUuid names d₀ s done rest) :
    Steady sha1 fs w sessionUuid names d₀ { s with toClient := [] } done done rest done.length :=
  ⟨h.steady.client, h.steady.handling, h.steady.serving, h.steady.writable, h.steady.acked,
    h.steady.distinct, h.steady.waiting⟩

/-- The client reads the abort and leaves its loop. -/
theorem Failed.read (h : Failed fs w names d₀ s) {id : SessionId}
    (hhandling : s.handling = true) (hin : s.toClient = [.sessionAbort id]) :
    ∃ t, Channel.step sha1 fs .client s = some t ∧ Failed fs w names d₀ t ∧ t.Quiescent :=
  ⟨_, Channel.step_client sha1 fs hhandling hin,
    ⟨h.toServer, Or.inl rfl, h.missing, h.undelivered⟩, h.toServer, rfl⟩

/-- **Every step of a run leads from a phase to a phase.** -/
theorem Phase.step {a : Side} {s t : Channel} (hs : Channel.step sha1 fs a s = some t)
    (h : Phase sha1 fs w sessionUuid names d₀ s) : Phase sha1 fs w sessionUuid names d₀ t := by
  cases h with
  | @sending done f rest content pre post h =>
    cases a with
    | client => simp [Channel.step, h.toClient] at hs
    | server =>
      cases post with
      | nil => simp [Channel.step, h.toServer, chunkMessages] at hs
      | cons b post =>
        by_cases hb : b.length < chunkSize
        · obtain ⟨t', ht', hnext⟩ := h.serve_short hb
          obtain rfl : t' = t := Option.some.inj (ht'.symm.trans hs)
          rcases hnext with hack | hfailed
          · exact .acknowledged hack
          · exact .failed hfailed
        · obtain ⟨t', ht', hsending⟩ := h.serve_full hb
          obtain rfl : t' = t := Option.some.inj (ht'.symm.trans hs)
          exact .sending hsending
  | @ignored done f rest msgs h =>
    cases a with
    | client => simp [Channel.step, h.toClient] at hs
    | server =>
      cases msgs with
      | nil => simp [Channel.step, h.toServer] at hs
      | cons m msgs =>
        obtain ⟨t', ht', hignored⟩ := h.serve
        obtain rfl : t' = t := Option.some.inj (ht'.symm.trans hs)
        exact .ignored hignored
  | acknowledged h =>
    cases a with
    | server => simp [Channel.step, h.toServer] at hs
    | client =>
      obtain rfl := Option.some.inj (h.step_client.symm.trans hs)
      exact phase_send h.read h.names_eq h.toServer rfl h.sent
  | done h =>
    cases a with
    | server => simp [Channel.step, h.toServer] at hs
    | client => simp [Channel.step, h.toClient] at hs
  | failed h =>
    cases a with
    | server => simp [Channel.step, h.toServer] at hs
    | client =>
      rcases h.toClient with hin | ⟨hhandling, id, hin⟩
      · simp [Channel.step, hin] at hs
      · obtain ⟨t', ht', hfailed, -⟩ := h.read hhandling hin
        obtain rfl : t' = t := Option.some.inj (ht'.symm.trans hs)
        exact .failed hfailed

/-! ## Coming to rest -/

variable (sha1 fs) in
/-- Some schedule empties the channel. -/
def Channel.Settles (s : Channel) : Prop :=
  ∃ sched t, runFrom (Channel.step sha1 fs) sched s = some t ∧ t.Quiescent

theorem Channel.Settles.of_step {s t : Channel} {a : Side}
    (hs : Channel.step sha1 fs a s = some t) (h : t.Settles sha1 fs) : s.Settles sha1 fs := by
  obtain ⟨sched, u, hr, hq⟩ := h
  exact ⟨a :: sched, u, runFrom_cons.mpr ⟨t, hs, hr⟩, hq⟩

theorem Failed.settles (h : Failed fs w names d₀ s) : s.Settles sha1 fs := by
  rcases h.toClient with hin | ⟨hhandling, id, hin⟩
  · exact ⟨[], s, rfl, h.toServer, hin⟩
  · obtain ⟨t, ht, -, hq⟩ := h.read hhandling hin
    exact .of_step ht ⟨[], t, rfl, hq⟩

/-- The chunks of one file: each is served, until the file is stuck, given up or acknowledged. -/
theorem Sending.settles
    (hack : ∀ t, Acknowledged sha1 fs w sessionUuid names d₀ t (done ++ [f]) rest →
      t.Settles sha1 fs)
    (h : Sending sha1 fs w sessionUuid names d₀ s done f rest content pre post) :
    s.Settles sha1 fs := by
  induction post generalizing s pre with
  | nil => exact ⟨[], s, rfl, h.toServer, h.toClient⟩
  | cons b post ih =>
    by_cases hb : b.length < chunkSize
    · obtain ⟨t, ht, hnext⟩ := h.serve_short hb
      refine .of_step ht ?_
      rcases hnext with h' | hfailed
      · exact hack t h'
      · exact hfailed.settles
    · obtain ⟨t, ht, h'⟩ := h.serve_full hb
      exact .of_step ht (ih h')

theorem Ignored.settles (h : Ignored sha1 fs w sessionUuid names d₀ s done f rest msgs) :
    s.Settles sha1 fs := by
  induction msgs generalizing s with
  | nil => exact ⟨[], s, rfl, h.toServer, h.toClient⟩
  | cons m msgs ih =>
    obtain ⟨t, ht, h'⟩ := h.serve
    exact .of_step ht (ih h')

/-- The files one after the other. -/
theorem settles_send
    (h : Steady sha1 fs w sessionUuid names d₀ s done done rest done.length)
    (hn : names = done ++ rest) (hts : s.toServer = []) (htc : s.toClient = [])
    (hsent : s.sent = messagesOf fs sessionUuid done) : (Channel.send fs s).Settles sha1 fs := by
  induction rest generalizing s done with
  | nil =>
    obtain rfl : names = done := by simpa using hn
    have hdone := send_done h hts htc hsent
    exact ⟨[], _, rfl, hdone.toServer, hdone.toClient⟩
  | cons f rest ih =>
    rcases send_next h hn hts htc hsent with ⟨content, hsending⟩ | ⟨msgs, hignored⟩
    · refine hsending.settles fun t hack => ?_
      exact .of_step hack.step_client (ih hack.read hack.names_eq hack.toServer rfl hack.sent)
    · exact hignored.settles

/-! ## What a run at rest has sent -/

/-- As many copies of a file were sent as it stands in the list. -/
theorem length_filter_messagesOf (l : List Str) (f : Str) :
    ((messagesOf fs sessionUuid l).filter fun m => m.filename = f).length
      = l.count f * (fileMessages sessionUuid f ((fs f).getD [])).length := by
  induction l with
  | nil => simp [messagesOf]
  | cons g l ih =>
    rw [messagesOf, List.flatMap_cons, List.filter_append, List.length_append]
    rw [messagesOf] at ih
    by_cases hg : g = f
    · subst hg
      rw [List.filter_eq_self.mpr fun m hm => by simp [(mem_fileMessages hm).1], ih,
        List.count_cons_self]
      ring
    · rw [List.filter_eq_nil_iff.mpr fun m hm => by simp [(mem_fileMessages hm).1, hg], ih,
        List.count_cons_of_ne hg, List.length_nil, Nat.zero_add]

/-- A file that stands in the list once was sent once. -/
theorem filter_messagesOf {l : List Str} (hnd : l.Nodup) (hf : f ∈ l) :
    (messagesOf fs sessionUuid l).filter (fun m => m.filename = f)
      = fileMessages sessionUuid f ((fs f).getD []) := by
  induction l with
  | nil => cases hf
  | cons g l ih =>
    obtain ⟨hg, hnd⟩ := List.nodup_cons.mp hnd
    rw [messagesOf, List.flatMap_cons, List.filter_append]
    rcases List.mem_cons.mp hf with rfl | hf
    · have hnone : (messagesOf fs sessionUuid l).filter (fun m => m.filename = f) = [] := by
        rw [← List.length_eq_zero_iff, length_filter_messagesOf, List.count_eq_zero.mpr hg,
          Nat.zero_mul]
      rw [messagesOf] at hnone
      rw [hnone, List.append_nil]
      exact List.filter_eq_self.mpr fun m hm => by simp [(mem_fileMessages hm).1]
    · have hne : g ≠ f := fun heq => hg (heq ▸ hf)
      have hrest := ih hnd hf
      rw [messagesOf] at hrest
      rw [List.filter_eq_nil_iff.mpr fun m hm => by simp [(mem_fileMessages hm).1, hne], hrest,
        List.nil_append]

/-- A file that is ignored was sent before, or is not AVAILABLE. -/
theorem Ignored.not_allArrived
    (h : Ignored sha1 fs w sessionUuid names d₀ s done f rest msgs) :
    ¬ s.AllArrived fs names := by
  intro hall
  obtain ⟨honce, v', -, -, hv', -, hav, -⟩ := hall f (by simp [h.names_eq])
  obtain ⟨v, content, he, hst, -⟩ := h.steady.waiting f List.mem_cons_self
  by_cases hf : f ∈ done
  · have hlen := congrArg List.length honce
    rw [h.sent, length_filter_messagesOf, h.steady.client, List.count_append,
      List.count_singleton_self] at hlen
    have hcount : 0 < done.count f := List.count_pos_iff.mpr hf
    have hpos : 0 < (fileMessages sessionUuid f ((fs f).getD [])).length :=
      List.length_pos_iff.mpr fileMessages_ne_nil
    nlinarith
  · obtain rfl := Option.some.inj (he.1.symm.trans hv')
    exact hst hf hav

/-- A run that is done has delivered the files, if they could be. -/
theorem Done.allArrived_iff (h : Done sha1 fs w sessionUuid names d₀ s) :
    s.AllArrived fs names ↔ CanArrive fs w names d₀ := by
  have hnd : names.Nodup := h.steady.distinct.of_map
  constructor
  · intro hall
    refine ⟨h.steady.distinct, fun f hf content hc => ?_, fun f hf content hc => ?_⟩
    · obtain ⟨v, content', t, he, -, -, -, -, hshort⟩ := h.steady.acked f hf
      obtain rfl := Option.some.inj (he.2.1.symm.trans hc)
      exact hshort
    · obtain ⟨v, content', t, he, -, hd, -⟩ := h.steady.acked f hf
      obtain ⟨-, v', content'', t', hv', hc', -, hd', -⟩ := hall f hf
      obtain rfl := Option.some.inj (he.2.1.symm.trans hc)
      obtain rfl := Option.some.inj (hc'.symm.trans hc)
      obtain rfl := Option.some.inj (he.1.symm.trans hv')
      rw [← he.2.2.1, ← hd, hd']
  · intro hdel f hf
    obtain ⟨v, content, t, he, hst, hd, ht, hfin, -⟩ := h.steady.acked f hf
    refine ⟨?_, v, content, t, he.1, he.2.1, hst, ?_, ht, hfin⟩
    · rw [h.sent, h.steady.client]
      exact filter_messagesOf hnd hf
    · rw [hd, he.2.2.1]
      exact hdel.lands f hf content he.2.1

/-- **What a run at rest looks like**: everything has arrived, and could be delivered; or neither.
The transfer of a file on its way is unfinished. -/
theorem Phase.atRest (h : Phase sha1 fs w sessionUuid names d₀ s) (hq : s.Quiescent) :
    s.AllArrived fs names ↔ CanArrive fs w names d₀ := by
  cases h with
  | @sending done f rest content pre post h =>
    have hmem : f ∈ names := by simp [h.names_eq]
    obtain ⟨v, he, -, hrec⟩ := h.entry
    constructor
    · intro hall
      obtain ⟨-, v', _, t, hv', _, _, _, ht, hfin⟩ := hall f hmem
      obtain rfl : v' = v := Option.some.inj (hv'.symm.trans he.1)
      have hnot := hrec.notFinished
      rw [openTransfer_of_some ht] at hnot
      exact absurd (hfin.symm.trans hnot) (by decide)
    · intro hdel
      have hpost : post = [] := by
        cases post with
        | nil => rfl
        | cons b post => exact absurd (h.toServer.symm.trans hq.1) (by simp [chunkMessages])
      refine absurd (hdel.endsShort f hmem content he.2.1)
        (not_endsShort_of_full fun b hb => h.full b ?_)
      simpa [h.blocks_eq, hpost] using hb
  | @ignored done f rest msgs h =>
    refine iff_of_false h.not_allArrived fun hdel => ?_
    have hdistinct := hdel.distinct
    rw [h.names_eq, List.map_append, List.map_cons] at hdistinct
    exact (List.nodup_append.mp hdistinct).2.2 _ h.taken _ List.mem_cons_self rfl
  | acknowledged h =>
    obtain ⟨m, hm, -⟩ := h.toClient
    exact absurd (hm.symm.trans hq.2) (by simp)
  | done h => exact h.allArrived_iff
  | failed h =>
    obtain ⟨f, hf, hnot⟩ := h.missing
    exact iff_of_false (fun hall => hnot (hall f hf).2) h.undelivered

/-- A session start that declares the true sizes and digests leaves every file to be sent. -/
theorem Declared.steady {u : UploadState} (h : Declared sha1 fs w names u) :
    Steady sha1 fs w sessionUuid names u.disk
      ⟨⟨sessionUuid, names, 0⟩, true, [], u, true, [], []⟩ [] [] names ([] : List Str).length where
  client := rfl
  handling := rfl
  serving := rfl
  writable := rfl
  acked := fun _ hf => by cases hf
  distinct := List.nodup_nil
  waiting := fun f hf => by
    obtain ⟨v, content, hv, hc, hp, hsz, hsha, hst⟩ := h.entry f hf
    exact ⟨v, content, ⟨hv, hc, hp, hsz, hsha⟩, fun _ => hst, fun _ => ⟨h.unopened _, rfl⟩⟩

/-- Every run that comes to rest has delivered the files, if they could be. -/
theorem Declared.atRest {u : UploadState} (h : Declared sha1 fs w names u) {sched : List Side}
    {t : Channel}
    (hr : runFrom (Channel.step sha1 fs) sched (Channel.start fs sessionUuid names u) = some t)
    (hq : t.Quiescent) : t.AllArrived fs names ↔ CanArrive fs w names u.disk := by
  have hphase : Phase sha1 fs w sessionUuid names u.disk t :=
    runFrom_invariant (fun _ _ _ hs hp => hp.step hs) hr (phase_send h.steady rfl rfl rfl rfl)
  exact hphase.atRest hq

/-- **The runs deliver exactly what can be delivered**, as far as path texts tell files apart. -/
theorem Declared.arrives_iff {u : UploadState} (h : Declared sha1 fs w names u)
    (sessionUuid : SessionId) :
    (∀ sched t, runFrom (Channel.step sha1 fs) sched (Channel.start fs sessionUuid names u)
        = some t → t.Quiescent → t.AllArrived fs names)
      ↔ CanArrive fs w names u.disk := by
  constructor
  · intro hall
    obtain ⟨sched, t, hr, hq⟩ : (Channel.start fs sessionUuid names u).Settles sha1 fs :=
      settles_send h.steady rfl rfl rfl rfl
    exact (h.atRest hr hq).mp (hall sched t hr hq)
  · exact fun hdel sched t hr hq => (h.atRest hr hq).mpr hdel

theorem Deliverable.canArrive {d : Disk} (h : Deliverable fs w names d) :
    CanArrive fs w names d where
  distinct := List.pairwise_map.mpr h.apart
  endsShort := h.endsShort
  lands := h.lands

theorem CanArrive.deliverable {d : Disk} (h : CanArrive fs w names d)
    (hagree : ∀ f ∈ names, ∀ g ∈ names,
      SameFile (cnvtClientToServerPath w f) (cnvtClientToServerPath w g) →
        cnvtClientToServerPath w f = cnvtClientToServerPath w g ∨ fs f = fs g) :
    Deliverable fs w names d where
  apart := List.pairwise_map.mp h.distinct
  agree f hf g hg hsame := by
    rcases hagree f hf g hg hsame with hpath | hbytes
    · rw [List.inj_on_of_nodup_map h.distinct hf hg hpath]
    · exact hbytes
  endsShort := h.endsShort
  lands := h.lands

/-- **The upload round trip**: if the required files can be delivered, then, whatever the schedule,
when no message is in flight each of them has been sent once and has arrived; and only then, unless
two server paths that are different texts lead to one file for different bytes. -/
theorem upload_arrives_iff {u : UploadState} (sessionUuid : SessionId)
    (hdecl : Declared sha1 fs w names u) :
    (Deliverable fs w names u.disk →
        ∀ sched t, runFrom (Channel.step sha1 fs) sched (Channel.start fs sessionUuid names u)
          = some t → t.Quiescent → t.AllArrived fs names)
      ∧ ((∀ f ∈ names, ∀ g ∈ names,
          SameFile (cnvtClientToServerPath w f) (cnvtClientToServerPath w g) →
            cnvtClientToServerPath w f = cnvtClientToServerPath w g ∨ fs f = fs g) →
        ((∀ sched t, runFrom (Channel.step sha1 fs) sched (Channel.start fs sessionUuid names u)
            = some t → t.Quiescent → t.AllArrived fs names)
          ↔ Deliverable fs w names u.disk)) := by
  refine ⟨fun h => (hdecl.arrives_iff sessionUuid).mpr h.canArrive, fun hagree => ?_⟩
  rw [hdecl.arrives_iff sessionUuid]
  exact ⟨fun h => h.deliverable hagree, fun h => h.canArrive⟩

/-! ### Two files, and one without an end -/

/-- A client that holds `/m.h` and `/n.h`. -/
def sampleFiles (content content' : Str) : Str → Option Str :=
  fun f => if f = str "/m.h" then some content else if f = str "/n.h" then some content' else none

/-- The entry of a file that was asked for. -/
def askedFor (path content : Str) : FileStateView where
  fileSzBytes := UInt64.ofNat content.length
  fileSha1 := sampleSha1 content
  fileStatus := .uploading
  upStartTime := 0
  serverFilePath := path

/-- The server once both have been declared and asked for. -/
def sampleDeclared (content content' : Str) : UploadState :=
  .fresh (fun f => if f = str "/m.h" then some (askedFor (str "/w/m.h") content)
    else if f = str "/n.h" then some (askedFor (str "/w/n.h") content') else none) Disk.empty

theorem declared_sample {content content' : Str} (h : content.length < 2 ^ 64)
    (h' : content'.length < 2 ^ 64) {names : List Str}
    (hnames : ∀ f ∈ names, f = str "/m.h" ∨ f = str "/n.h") :
    Declared sampleSha1 (sampleFiles content content') (str "/w") names
      (sampleDeclared content content') where
  entry f hf := by
    rcases hnames f hf with rfl | rfl
    · exact ⟨_, content, rfl, rfl, rfl, UInt64.toNat_ofNat_of_lt' h, rfl, by simp [askedFor]⟩
    · exact ⟨_, content', rfl, rfl, rfl, UInt64.toNat_ofNat_of_lt' h', rfl, by simp [askedFor]⟩
  unopened _ := rfl

/-- A file of one byte and an empty one arrive, and both can be delivered. -/
theorem upload_arrives_two :
    Declared sampleSha1 (sampleFiles (str "a") []) (str "/w") [str "/m.h", str "/n.h"]
        (sampleDeclared (str "a") [])
      ∧ (∀ sched t, runFrom (Channel.step sampleSha1 (sampleFiles (str "a") [])) sched
          (Channel.start (sampleFiles (str "a") []) (str "s") [str "/m.h", str "/n.h"]
            (sampleDeclared (str "a") []))
          = some t → t.Quiescent →
            t.AllArrived (sampleFiles (str "a") []) [str "/m.h", str "/n.h"])
      ∧ Deliverable (sampleFiles (str "a") []) (str "/w") [str "/m.h", str "/n.h"]
        (sampleDeclared (str "a") []).disk := by
  have hdecl : Declared sampleSha1 (sampleFiles (str "a") []) (str "/w")
      [str "/m.h", str "/n.h"] (sampleDeclared (str "a") []) :=
    declared_sample (by decide) (by decide) (by simp)
  have hdel : Deliverable (sampleFiles (str "a") []) (str "/w") [str "/m.h", str "/n.h"]
      (sampleDeclared (str "a") []).disk := by
    refine ⟨by decide, ?_, fun f hf content hc => ?_, fun f _ content _ => rfl⟩
    · decide
    rcases List.mem_pair.mp hf with rfl | rfl
    · obtain rfl : str "a" = content := Option.some.inj (hc : some (str "a") = some content)
      exact Or.inr (by decide)
    · obtain rfl : [] = content := Option.some.inj (hc : some [] = some content)
      exact Or.inl rfl
  obtain ⟨harrives, hiff⟩ := upload_arrives_iff (str "s") hdecl
  exact ⟨hdecl, harrives hdel, (hiff (by decide)).mp (harrives hdel)⟩

/-- A file of exactly one buffer never ends. -/
theorem upload_stalls_full_buffer :
    let content : Str := List.replicate 65536 0
    ¬ ∀ sched t, runFrom (Channel.step sampleSha1 (sampleFiles content [])) sched
        (Channel.start (sampleFiles content []) (str "s") [str "/m.h"] (sampleDeclared content []))
        = some t → t.Quiescent → t.AllArrived (sampleFiles content []) [str "/m.h"] := by
  intro content h
  have hlen : content.length = 65536 := List.length_replicate ..
  have hdecl : Declared sampleSha1 (sampleFiles content []) (str "/w") [str "/m.h"]
      (sampleDeclared content []) := declared_sample (by omega) (by decide) (by simp)
  have hshort := ((hdecl.arrives_iff (str "s")).mp h).endsShort (str "/m.h")
    (List.mem_singleton_self _) content (if_pos rfl)
  rcases hshort with h0 | hnd
  · rw [h0] at hlen
    exact absurd hlen (by decide)
  · exact hnd (by rw [hlen]; decide)

end DistBuild
