import EmbraOS.Ports.Http

/-!
# What the request guard hands to the transport

Every request of a run is for a URL that the policy accepted on that hop, and
its headers are the guest's, which are no credentials, with the secrets of the
hop's own host over them (`guardedHttpRequest_spec`).

A secret rides in a header, to its own host only, and none of the guest's
texts has one.  The target of a redirect is the server's text, and is not
searched: a server that has been given a secret can name it in the URL of the
next hop (`guardedHttpRequest_refused_and_echoed`).

A save is whole or nothing (`guardedHttpRequest_saves`): what one pass of the
loop can do is said once (`requestLoop_step`), and the ways a run ends
(`Ending`) decide what was saved.
-/

namespace EmbraOS.Ports.Http

open Verified
open Verified.Serde
open Verified.Text
open Ports.Egress
open Ports.Secrets

/-! ## The guest's headers -/

/-- Headers a guest may set. -/
def Guest (headers : Headers) : Prop :=
  ∀ h ∈ headers.entries, h.1.1 ∉ credentialHeaders ∧ h.1.1 ∉ transportHeaders

theorem Guest.set {headers : Headers} (hguest : Guest headers) {name : LowerName}
    (hname : name.1 ∉ credentialHeaders ∧ name.1 ∉ transportHeaders) (value : String) :
    Guest (headers.set name value) := by
  intro h hmem
  rcases Headers.mem_set.1 hmem with rfl | ⟨hold, -⟩
  · exact hname
  · exact hguest h hold

theorem guest_headerStep {headers headers' : Headers} {name : String} {val : Json}
    (hguest : Guest headers) (h : headerStep headers name val = .ok headers') :
    Guest headers' := by
  unfold headerStep at h
  split at h
  · cases h
  dsimp only at h
  split at h
  · cases h
  split at h
  · cases h
  split at h
  · cases h
  rename_i hcredential
  split at h
  · obtain rfl := Except.ok.inj h
    exact hguest
  · rename_i htransport
    obtain rfl := Except.ok.inj h
    exact hguest.set ⟨hcredential, htransport⟩ _

theorem guest_headerSteps (map : List (String × Json)) :
    ∀ headers headers' : Headers, Guest headers →
      headerSteps map headers = .ok headers' → Guest headers' := by
  induction map with
  | nil =>
    intro headers headers' hguest h
    obtain rfl := Except.ok.inj h
    exact hguest
  | cons entry rest ih =>
    intro headers headers' hguest h
    simp only [headerSteps, bind, Except.bind] at h
    split at h
    · cases h
    · rename_i next hstep
      exact ih next headers' (guest_headerStep hguest hstep) h

theorem guest_parseHeaders {v : Json} {headers : Headers}
    (h : parseHeaders v = .ok headers) : Guest headers := by
  unfold parseHeaders at h
  extract_lets start at h
  have hstart : Guest start := by
    have hempty : Guest Headers.empty := nofun
    dsimp only [start]
    split
    · exact hempty.set (by decide) _
    · exact hempty
  split at h
  · obtain rfl := Except.ok.inj h
    exact hstart
  · split at h
    · cases h
    · exact guest_headerSteps _ _ _ hstart h

theorem guest_parseBody {Url : Type} {w : World Url} {v : Json} {headers : Headers}
    {r : Headers × Option (List UInt8)} (hguest : Guest headers)
    (h : parseBody w v headers = .ok r) : Guest r.1 := by
  unfold parseBody at h
  split at h
  · cases h
  · obtain rfl := Except.ok.inj h
    exact hguest
  · obtain rfl := Except.ok.inj h
    exact hguest
  · obtain rfl := Except.ok.inj h
    exact hguest
  · cases h
  · split at h
    · cases h
    split at h
    · obtain rfl := Except.ok.inj h
      exact hguest
    · obtain rfl := Except.ok.inj h
      exact hguest.set (by decide) _

theorem except_bind_eq_ok {ε α β : Type} {x : Except ε α} {f : α → Except ε β} {b : β} :
    (x >>= f) = .ok b ↔ ∃ a, x = .ok a ∧ f a = .ok b := by
  cases x with
  | error e => simp [bind, Except.bind]
  | ok a => simp [bind, Except.bind]

theorem guest_parseHttpRequest {Url : Type} {w : World Url} {input : String}
    {policy : EgressPolicy} {req : HttpRequest}
    (h : parseHttpRequest w input policy = .ok req) : Guest req.headers := by
  simp only [parseHttpRequest, except_bind_eq_ok] at h
  obtain ⟨v, -, -, -, -, -, method, -, -, -, parsed, -, headers, hheaders, -, -, r, hbody,
    -, -, saveTo, -, -, -, timeout, -, h⟩ := h
  obtain rfl := Except.ok.inj h
  exact guest_parseBody (guest_parseHeaders hheaders) hbody

/-! ## The secrets of a hop -/

theorem carriesSecret_ok {caps : Capabilities} {texts : List String}
    (h : carriesSecret caps texts = .ok ()) :
    ∀ text ∈ texts, foundIn caps.outboundSecrets text = none := by
  induction texts with
  | nil => simp
  | cons text texts ih =>
    rw [carriesSecret] at h
    split at h
    · cases h
    · rename_i hnone
      rintro text' (_ | ⟨_, hmem⟩)
      · exact hnone
      · exact ih h text' hmem

/-- A header of a hop is of a secret for the hop's host, or was there before. -/
theorem mem_withSecrets {hosts : List String} {secrets : List SecretHeader}
    {h : LowerName × String} : ∀ {headers : Headers},
    h ∈ (withSecrets hosts secrets headers).entries →
      (∃ secret ∈ secrets, secret.host ∈ hosts ∧ h = (secret.name, secret.value)) ∨
        h ∈ headers.entries := by
  unfold withSecrets
  have hfold : ∀ (chosen : List SecretHeader) (headers : Headers),
      h ∈ (chosen.foldl (fun headers secret => headers.set secret.name secret.value)
        headers).entries →
      (∃ secret ∈ chosen, h = (secret.name, secret.value)) ∨ h ∈ headers.entries := by
    intro chosen
    induction chosen with
    | nil => exact fun _ h => Or.inr h
    | cons secret chosen ih =>
      intro headers hmem
      rcases ih _ hmem with ⟨secret', hs, rfl⟩ | hmem
      · exact Or.inl ⟨secret', List.mem_cons_of_mem _ hs, rfl⟩
      · rcases Headers.mem_set.1 hmem with rfl | ⟨hold, -⟩
        · exact Or.inl ⟨secret, List.mem_cons_self, rfl⟩
        · exact Or.inr hold
  intro headers hmem
  rcases hfold _ headers hmem with ⟨secret, hs, rfl⟩ | hold
  · obtain ⟨hs, hhost⟩ := List.mem_filter.1 hs
    exact Or.inl ⟨secret, hs, of_decide_eq_true hhost, rfl⟩
  · exact Or.inr hold

/-! ## The loop -/

section Loop

variable {Url : Type} {w : World Url} {caps : Capabilities} {http : HttpTransport}
  {req : HttpRequest} {sink : Option (FileSink × String)}

/-- The request of hop `i`: accepted, in time, and built from the guest's. -/
structure Hop (w : World Url) (caps : Capabilities) (req : HttpRequest) (i : Nat)
    (hop : HttpRequest) (parsed : Url) : Prop where
  accepted : checkUrl w.toNetwork caps.httpPolicy i hop.url = .ok parsed
  inTime : w.elapsed i < req.timeout
  built : hop = hopRequest w caps req parsed hop.url (req.timeout - w.elapsed i)

variable {hop : HttpRequest} {parsed : Url} {left hops : Nat} {current : String}

theorem Hop.maxBytes_eq {i : Nat}
    (h : Hop w caps req i hop parsed) : hop.maxBytes = req.maxBytes := by
  rw [h.built]
  rfl

/-- What the loop adds to the requests made: hops in order, one of them when
redirects are not followed, and the first for the URL it starts with. -/
structure Hops (w : World Url) (caps : Capabilities) (req : HttpRequest)
    (left hops : Nat) (current : String) (new : List HttpRequest) : Prop where
  each : ∀ i hop, new[i]? = some hop → ∃ parsed, Hop w caps req (hops + i) hop parsed
  first : ∀ hop, new[0]? = some hop → hop.url = current
  bound : new.length ≤ left + 1
  once : req.method.followsRedirects = false → new.length ≤ 1
  /-- A first URL that passes is asked for. -/
  asked : new = [] ↔ ¬((∃ parsed,
    checkUrl w.toNetwork caps.httpPolicy hops current = .ok parsed) ∧
      w.elapsed hops < req.timeout)

private theorem Hops.none
    (h : ¬((∃ parsed, checkUrl w.toNetwork caps.httpPolicy hops current = .ok parsed) ∧
      w.elapsed hops < req.timeout)) : Hops w caps req left hops current [] where
  each i hop hi := by simp at hi
  first hop hi := by simp at hi
  bound := by simp
  once _ := by simp
  asked := by simpa using h

private theorem Hops.single (hhop : Hop w caps req hops hop parsed) (hurl : hop.url = current) :
    Hops w caps req left hops current [hop] where
  each i hop' h := by
    obtain ⟨rfl, rfl⟩ : i = 0 ∧ hop = hop' := by
      cases i <;> simp_all
    exact ⟨parsed, hhop⟩
  first hop' h := by
    obtain rfl : hop = hop' := by simpa using h
    exact hurl
  bound := by simp
  once _ := by simp
  asked := by
    have := hurl ▸ hhop.accepted
    simp [this, hhop.inTime]

private theorem Hops.cons {next : String} {new : List HttpRequest}
    (hhop : Hop w caps req hops hop parsed) (hurl : hop.url = current)
    (hfollow : req.method.followsRedirects = true)
    (hrest : Hops w caps req left (hops + 1) next new) :
    Hops w caps req (left + 1) hops current (hop :: new) where
  each i hop' h := by
    cases i with
    | zero =>
      obtain rfl : hop = hop' := by simpa using h
      exact ⟨parsed, hhop⟩
    | succ i =>
      obtain ⟨parsed', hhop'⟩ := hrest.each i hop' (by simpa using h)
      exact ⟨parsed', by rwa [show hops + (i + 1) = hops + 1 + i by omega]⟩
  first hop' h := by
    obtain rfl : hop = hop' := by simpa using h
    exact hurl
  bound := Nat.succ_le_succ hrest.bound
  once hno := absurd (hfollow.symm.trans hno) (by simp)
  asked := by
    have := hurl ▸ hhop.accepted
    simp [this, hhop.inTime]

/-- How a run ends whose last request is `hop`: the transport fails, a redirect
is not followed, or the answer is given. -/
inductive Ending (http : HttpTransport) (req : HttpRequest)
    (sink : Option (FileSink × String)) (calls : List HttpRequest) (hop : HttpRequest) :
    Run → Prop where
  | failed {e : String} (herr : http calls hop = .error e) :
      Ending http req sink calls hop
        { calls := calls ++ [hop], reply := some (errJson e) }
  | redirect {resp : HttpResponse} {reply : Json} (hresp : http calls hop = .ok resp)
      (hstatus : isRedirect resp.status = true)
      (hreply : (∃ e, reply = errJson e) ∨
        ∃ current hops loc, reply = redirectReply current hops resp loc) :
      Ending http req sink calls hop { calls := calls ++ [hop], reply := some reply }
  | answered {resp : HttpResponse} {saves : List (String × List UInt8 × String)}
      {reply : Json} (current : String) (hops : Nat) (hresp : http calls hop = .ok resp)
      (hanswer : answer req sink current hops resp = (saves, reply)) :
      Ending http req sink calls hop { calls := calls ++ [hop], saves, reply := some reply }

theorem Ending.calls_eq {calls : List HttpRequest} {run : Run}
    (h : Ending http req sink calls hop run) : run.calls = calls ++ [hop] := by
  cases h <;> rfl

variable (w caps http req sink) in
/-- One pass of the loop: it stops before the transport, it makes one request
and stops, or it makes one and goes on to the redirect's target. -/
theorem requestLoop_step (left hops : Nat) (calls : List HttpRequest)
    (current : String) :
    ((∃ e, requestLoop w caps http req sink left hops calls current =
        { calls, reply := some (errJson e) }) ∧
      ¬((∃ parsed, checkUrl w.toNetwork caps.httpPolicy hops current = .ok parsed) ∧
        w.elapsed hops < req.timeout)) ∨
    ∃ hop parsed, Hop w caps req hops hop parsed ∧ hop.url = current ∧
      (Ending http req sink calls hop
          (requestLoop w caps http req sink left hops calls current) ∨
        ∃ left' next resp, left = left' + 1 ∧ req.method.followsRedirects = true ∧
          http calls hop = .ok resp ∧ isRedirect resp.status = true ∧
          requestLoop w caps http req sink left hops calls current =
            requestLoop w caps http req sink left' (hops + 1) (calls ++ [hop]) next) := by
  rw [requestLoop]
  split
  · rename_i e hcheck
    refine Or.inl ⟨⟨_, rfl⟩, ?_⟩
    rintro ⟨⟨parsed, hok⟩, -⟩
    rw [hcheck] at hok
    cases hok
  · rename_i parsed hcheck
    split
    · rename_i hspent
      exact Or.inl ⟨⟨_, rfl⟩, fun h => Nat.not_le.2 h.2 hspent⟩
    rename_i htime
    refine Or.inr ⟨hopRequest w caps req parsed current (req.timeout - w.elapsed hops),
      parsed, ⟨hcheck, Nat.not_le.1 htime, rfl⟩, rfl, ?_⟩
    dsimp only
    split
    · rename_i e herr
      exact Or.inl (.failed herr)
    rename_i resp hresp
    split
    · rename_i loc hloc
      have hstatus : isRedirect resp.status = true := by
        by_contra hno
        rw [if_neg hno] at hloc
        cases hloc
      split
      · rename_i left' hfollow
        split
        · exact Or.inl (.redirect hresp hstatus (Or.inl ⟨_, rfl⟩))
        · rename_i next hjoin
          exact Or.inr ⟨left', w.toText next, resp, rfl, hfollow, hresp, hstatus, rfl⟩
      · exact Or.inl (.redirect hresp hstatus (Or.inr ⟨current, hops, loc, rfl⟩))
    · exact Or.inl (.answered current hops hresp Prod.mk.eta.symm)

variable (w caps http req sink) in
/-- By induction on the redirects left. -/
theorem requestLoop_hops (left : Nat) :
    ∀ (hops : Nat) (calls : List HttpRequest) (current : String), ∃ new,
      (requestLoop w caps http req sink left hops calls current).calls = calls ++ new ∧
        Hops w caps req left hops current new := by
  induction left using Nat.strongRecOn with
  | ind left ih =>
    intro hops calls current
    rcases requestLoop_step w caps http req sink left hops calls current with
      ⟨⟨e, hrun⟩, hno⟩ |
        ⟨hop, parsed, hhop, hurl, hend | ⟨left, next, -, rfl, hfollow, -, -, hrun⟩⟩
    · exact ⟨[], by simp [hrun], Hops.none hno⟩
    · exact ⟨[hop], hend.calls_eq, Hops.single hhop hurl⟩
    · obtain ⟨new, hnew, hrest⟩ := ih left (Nat.lt_succ_self _) (hops + 1) (calls ++ [hop]) next
      refine ⟨hop :: new, ?_, Hops.cons hhop hurl hfollow hrest⟩
      rw [hrun, hnew, List.append_assoc, List.singleton_append]

/-- The last request made was answered by a redirect. -/
def Moved (http : HttpTransport) (calls : List HttpRequest) : Prop :=
  ∀ init hop resp, calls = init ++ [hop] → http init hop = .ok resp →
    isRedirect resp.status = true

variable (w caps http req sink) in
/-- How the loop ends: with an error on the way to the next hop, or as its last
request does.  By induction on the redirects left. -/
theorem requestLoop_ends (left : Nat) :
    ∀ (hops : Nat) (calls : List HttpRequest) (current : String), Moved http calls →
      (∃ made e, Moved http made ∧
        requestLoop w caps http req sink left hops calls current =
          { calls := made, reply := some (errJson e) }) ∨
      ∃ init hop, hop.maxBytes = req.maxBytes ∧ Ending http req sink init hop
        (requestLoop w caps http req sink left hops calls current) := by
  induction left using Nat.strongRecOn with
  | ind left ih =>
    intro hops calls current hmoved
    rcases requestLoop_step w caps http req sink left hops calls current with
      ⟨⟨e, hrun⟩, -⟩ |
        ⟨hop, parsed, hhop, -, hend | ⟨left, next, resp, rfl, -, hresp, hstatus, hrun⟩⟩
    · exact Or.inl ⟨calls, e, hmoved, hrun⟩
    · exact Or.inr ⟨calls, hop, hhop.maxBytes_eq, hend⟩
    rw [hrun]
    refine ih left (Nat.lt_succ_self _) (hops + 1) (calls ++ [hop]) next ?_
    intro init hop' resp' hcalls hresp'
    obtain ⟨rfl, hlast⟩ := List.append_inj' hcalls rfl
    obtain rfl := List.singleton_inj.1 hlast
    obtain rfl := Except.ok.inj (hresp.symm.trans hresp')
    exact hstatus

end Loop

/-! ## The guard -/

section Guard

variable {Url : Type} (w : World Url) (caps : Capabilities) (input : String)

/-- Every guard before the transport passes the request. -/
def Admitted (req : HttpRequest) : Prop :=
  caps.http.isSome = true ∧ carriesSecret caps (guestTexts input req) = .ok () ∧
    (∃ sink, preflight caps req = .ok sink) ∧
    (∃ parsed, checkUrl w.toNetwork caps.httpPolicy 0 req.url = .ok parsed) ∧
    w.elapsed 0 < req.timeout

/-- A run makes no request, or it is the loop of an admitted one. -/
theorem guardedHttpRequest_cases :
    ((guardedHttpRequest w caps input).calls = [] ∧
      ∀ req, parseHttpRequest w input caps.httpPolicy = .ok req →
        ¬Admitted w caps input req) ∨
    ∃ req, parseHttpRequest w input caps.httpPolicy = .ok req ∧
      Admitted w caps input req ∧ (guardedHttpRequest w caps input).calls ≠ [] ∧
      Hops w caps req maxRedirects 0 req.url (guardedHttpRequest w caps input).calls := by
  unfold guardedHttpRequest
  split
  · rename_i hhttp
    refine Or.inl ⟨rfl, fun req _ hadm => ?_⟩
    rw [Admitted, hhttp] at hadm
    exact Bool.false_ne_true hadm.1
  · rename_i http hhttp
    split
    · rename_i hparse
      refine Or.inl ⟨rfl, fun req hreq => ?_⟩
      rw [hparse] at hreq
      cases hreq
    · rename_i e hparse
      refine Or.inl ⟨rfl, fun req hreq => ?_⟩
      rw [hparse] at hreq
      cases hreq
    · rename_i req hparse
      have hsame : ∀ req', parseHttpRequest w input caps.httpPolicy = .ok req' →
          req' = req :=
        fun req' h => (Except.ok.inj (hparse.symm.trans h)).symm
      split
      · rename_i e hsecret
        refine Or.inl ⟨rfl, fun req' hreq' hadm => ?_⟩
        obtain rfl := hsame req' hreq'
        rw [Admitted, hsecret] at hadm
        cases hadm.2.1
      · rename_i hsecret
        split
        · rename_i e hflight
          refine Or.inl ⟨rfl, fun req' hreq' hadm => ?_⟩
          obtain rfl := hsame req' hreq'
          obtain ⟨sink, hsink⟩ := hadm.2.2.1
          rw [hflight] at hsink
          cases hsink
        · rename_i sink hflight
          obtain ⟨new, hcalls, hhops⟩ :=
            requestLoop_hops w caps http req sink maxRedirects 0 [] req.url
          rw [List.nil_append] at hcalls
          rw [hcalls]
          have hsome : caps.http.isSome = true := by rw [hhttp]; rfl
          by_cases hpass : (∃ parsed, checkUrl w.toNetwork caps.httpPolicy 0 req.url =
              .ok parsed) ∧ w.elapsed 0 < req.timeout
          · exact Or.inr ⟨req, hparse, ⟨hsome, hsecret, ⟨sink, hflight⟩, hpass⟩,
              fun hnil => hhops.asked.1 hnil hpass, hhops⟩
          · refine Or.inl ⟨hhops.asked.2 hpass, fun req' hreq' hadm => ?_⟩
            obtain rfl := hsame req' hreq'
            exact hpass hadm.2.2.2

/-- **What reaches the transport.**  Every request is for a URL that the policy
accepted on its hop.  Each of its headers is of a secret stored for that hop's
host, or is the guest's, no credential and without any stored secret; no two
have one name.  Neither the body nor the first URL has a stored secret.  There
are at most `maxRedirects + 1` requests; for a method other than GET and HEAD
there is one when every guard passes it, and none otherwise. -/
theorem guardedHttpRequest_spec :
    (∀ i hop, (guardedHttpRequest w caps input).calls[i]? = some hop →
      ∃ parsed, checkUrl w.toNetwork caps.httpPolicy i hop.url = .ok parsed ∧
        (∀ h ∈ hop.headers.entries,
          (∃ secret ∈ caps.secrets, secret.host ∈ secretHostsOf w parsed ∧
            h = (secret.name, secret.value)) ∨
          (h.1.1 ∉ credentialHeaders ∧ foundIn caps.outboundSecrets h.2 = none)) ∧
        (hop.headers.entries.map (fun h => toAsciiLowercase h.1.1)).Nodup ∧
        (∀ body, hop.body = some body → foundIn caps.outboundSecrets
          (String.ofList (Utf8.fromUtf8Lossy body)) = none) ∧
        (i = 0 → foundIn caps.outboundSecrets hop.url = none)) ∧
    (guardedHttpRequest w caps input).calls.length ≤ maxRedirects + 1 ∧
    ∀ req, parseHttpRequest w input caps.httpPolicy = .ok req →
      req.method ≠ .get → req.method ≠ .head →
      (guardedHttpRequest w caps input).calls.length ≤ 1 ∧
        ((guardedHttpRequest w caps input).calls.length = 1 ↔
          Admitted w caps input req) := by
  rcases guardedHttpRequest_cases w caps input with
    ⟨hnil, hnot⟩ | ⟨req, hparse, hadm, hsome, hhops⟩
  · rw [hnil]
    refine ⟨by simp, by simp, fun req hreq _ _ => ⟨by simp, ?_⟩⟩
    simp [hnot req hreq]
  · refine ⟨fun i hop hi => ?_, hhops.bound, fun req' hreq' hget hhead => ?_⟩
    · obtain ⟨parsed, hhop⟩ := hhops.each i hop hi
      rw [Nat.zero_add] at hhop
      have hclean := carriesSecret_ok hadm.2.1
      refine ⟨parsed, hhop.accepted, fun h hmem => ?_, hop.headers.nodup_lower,
        fun body hbody => ?_, ?_⟩
      · rw [hhop.built] at hmem
        rcases mem_withSecrets hmem with ⟨secret, hs, hhost, heq⟩ | hold
        · exact Or.inl ⟨secret, hs, hhost, heq⟩
        · refine Or.inr ⟨(guest_parseHttpRequest hparse h hold).1, hclean _ ?_⟩
          exact List.mem_append_left _ (List.mem_append_right _
            (List.mem_map.2 ⟨h, hold, rfl⟩))
      · rw [hhop.built] at hbody
        refine hclean _ (List.mem_append_right _ ?_)
        rw [show req.body = some body from hbody]
        exact List.mem_singleton.2 rfl
      · rintro rfl
        rw [hhops.first hop hi]
        exact hclean _ (List.mem_append_left _ (List.mem_append_left _ (by simp)))
    · obtain rfl := Except.ok.inj (hparse.symm.trans hreq')
      have honce := hhops.once (by simp [Method.followsRedirects, hget, hhead])
      have hpos := List.length_pos_iff.2 hsome
      exact ⟨honce, fun _ => hadm, fun _ => by omega⟩

/-- No request goes to an address outside the policy: not the literal one of
its URL, and none that its host resolved to on that hop. -/
theorem guardedHttpRequest_reaches {i : Nat} {hop : HttpRequest}
    (h : (guardedHttpRequest w caps input).calls[i]? = some hop) :
    ∃ parsed, Accepted w.toNetwork caps.httpPolicy i hop.url parsed := by
  rcases guardedHttpRequest_cases w caps input with ⟨hnil, -⟩ | ⟨req, -, -, -, hhops⟩
  · rw [hnil] at h
    cases h
  · obtain ⟨parsed, hhop⟩ := hhops.each i hop h
    rw [Nat.zero_add] at hhop
    exact ⟨parsed, checkUrl_ok hhop.accepted⟩

/-- The guest cannot send a stored secret: a request that has one of its forms
in a text makes no call. -/
theorem guardedHttpRequest_no_secret {set : SecretSet} {kind value form text : String}
    {later : List (String × String)} {req : HttpRequest}
    (hset : caps.outboundSecrets =
      later.foldl (fun s kv => add s kv.1 kv.2) (add set kind value))
    (hvalue : secretMinBytes ≤ (Utf8.encode (trim value).toList).length)
    (hform : form ∈ wireForms (trim value))
    (hlen : secretMinBytes ≤ (Utf8.encode form.toList).length)
    (hparse : parseHttpRequest w input caps.httpPolicy = .ok req)
    (htext : text ∈ guestTexts input req) (hhas : contains text form = true) :
    (guardedHttpRequest w caps input).calls = [] := by
  rcases guardedHttpRequest_cases w caps input with
    ⟨hnil, -⟩ | ⟨req', hparse', hadm, -, -⟩
  · exact hnil
  · obtain rfl := Except.ok.inj (hparse.symm.trans hparse')
    have hclean := carriesSecret_ok hadm.2.1 text htext
    rw [hset] at hclean
    exact absurd hclean (add_found set kind value hvalue hform hlen hhas later)

end Guard

/-! ## The save -/

section Save

variable {Url : Type} {w : World Url} {caps : Capabilities} {http : HttpTransport}
  {req : HttpRequest}

/-- A final answer that is to be saved: a success whose body is within the cap. -/
def Whole (req : HttpRequest) (resp : HttpResponse) : Prop :=
  200 ≤ resp.status ∧ resp.status < 300 ∧ resp.body.length ≤ req.maxBytes

variable {resp : HttpResponse} {saves : List (String × List UInt8 × String)} {reply : Json}
  {hop : HttpRequest} {α : Type} {input : String} {init : List HttpRequest}

theorem Whole.not_redirect (h : Whole req resp) :
    isRedirect resp.status = false := by
  obtain ⟨hlo, hhi, -⟩ := h
  simp only [isRedirect, List.mem_cons, List.not_mem_nil, or_false, decide_eq_false_iff_not]
  omega

/-- The reply to a save. -/
def SaveReply (files : FileSink) (dest : String) (resp : HttpResponse) (reply : Json) : Prop :=
  (∃ e, files.save dest resp.body resp.contentType = .error e ∧
    reply = errJson ("save_to: " ++ e)) ∨
  ∃ saved, files.save dest resp.body resp.contentType = .ok saved ∧
    reply.get? "saved" =
      some (.obj [("path", .str saved.path), ("bytes", nat saved.bytes)])

variable (req) in
/-- A call without a save saves nothing. -/
theorem answer_none {current : String} {hops : Nat}
    (h : answer req none current hops resp = (saves, reply)) : saves = [] := by
  simp only [answer] at h
  split at h
  · exact (Prod.mk.inj h).1.symm
  · exact (Prod.mk.inj h).1.symm

variable (req) in
/-- A final answer is saved when it is whole; otherwise it is given as a call without a save
gives it, or refused. -/
theorem answer_cases (files : FileSink) (dest current : String) (hops : Nat)
    (resp : HttpResponse)
    (h : answer req (some (files, dest)) current hops resp = (saves, reply)) :
    (Whole req resp ∧ saves = [(dest, resp.body, resp.contentType)] ∧
      SaveReply files dest resp reply) ∨
    (¬Whole req resp ∧ saves = [] ∧
      ((∃ e, reply = errJson e) ∨ answer req none current hops resp = (saves, reply))) := by
  by_cases hok : 200 ≤ resp.status ∧ resp.status < 300
  · by_cases hcap : req.maxBytes < resp.body.length
    · simp only [answer, if_pos hok, if_pos hcap, Prod.mk.injEq] at h
      exact Or.inr ⟨fun hwhole => Nat.not_lt.2 hwhole.2.2 hcap, h.1.symm, Or.inl ⟨_, h.2.symm⟩⟩
    refine Or.inl ⟨⟨hok.1, hok.2, Nat.not_lt.1 hcap⟩, ?_⟩
    simp only [answer, if_pos hok, if_neg hcap] at h
    cases hsave : files.save dest resp.body resp.contentType with
    | error e =>
      simp only [hsave, Prod.mk.injEq] at h
      exact ⟨h.1.symm, Or.inl ⟨e, hsave, h.2.symm⟩⟩
    | ok saved =>
      simp only [hsave, Prod.mk.injEq] at h
      refine ⟨h.1.symm, Or.inr ⟨saved, hsave, ?_⟩⟩
      rw [← h.2]
      rfl
  · have hplain : answer req none current hops resp = (saves, reply) := by
      rw [← h]
      simp only [answer, if_neg hok]
    exact Or.inr ⟨fun hwhole => hok ⟨hwhole.1, hwhole.2.1⟩, answer_none req hplain, Or.inr hplain⟩

/-- What a transport hands over of a server's answer: one byte past the cap at most. -/
def readBounded (server : HttpTransport) : HttpTransport := fun calls hop =>
  (server calls hop).map fun resp => { resp with body := resp.body.take (hop.maxBytes + 1) }

/-- A body within the cap is all that the server sent. -/
theorem readBounded_whole {server : HttpTransport} {calls : List HttpRequest} {full : HttpResponse}
    (hfull : server calls hop = .ok full)
    (hresp : readBounded server calls hop = .ok resp) (hle : resp.body.length ≤ hop.maxBytes) :
    resp.body = full.body := by
  simp only [readBounded, hfull, Except.map, Except.ok.injEq] at hresp
  subst hresp
  simp only [List.length_take] at hle ⊢
  exact List.take_of_length_le (by omega)

/-- A computation that does not panic. -/
def Calm {α : Type} (x : Except Halt α) : Prop := x ≠ .error .panicked

theorem calm_ok (a : α) : Calm (.ok a : Except Halt α) := nofun

theorem calm_fail (message : String) : Calm (fail message : Except Halt α) := by
  rintro ⟨⟩

theorem calm_failIf (bad : Prop) [Decidable bad] (message : String) :
    Calm (failIf bad message) := by
  unfold failIf
  split
  · exact calm_fail message
  · exact calm_ok ()

theorem calm_mapError (x : Except String α) (f : String → String) :
    Calm (x.mapError fun e => Halt.error (f e)) := by
  cases x <;> rintro ⟨⟩

theorem calm_bind {β : Type} {x : Except Halt α} {f : α → Except Halt β} (hx : Calm x)
    (hf : ∀ a, Calm (f a)) : Calm (x >>= f) := by
  cases x with
  | error e => exact fun h => hx (by cases h; rfl)
  | ok a => exact hf a

theorem calm_queryPairs (pairs : List (String × Json)) : Calm (queryPairs w pairs) := by
  induction pairs with
  | nil => exact calm_ok []
  | cons pair rest ih =>
    refine calm_bind ?_ fun text => calm_bind ih fun pairs => calm_ok _
    unfold queryText
    split <;> first | exact calm_ok _ | exact calm_fail _

theorem calm_headerSteps (map : List (String × Json)) :
    ∀ headers : Headers, Calm (headerSteps map headers) := by
  induction map with
  | nil => exact fun headers => calm_ok headers
  | cons entry rest ih =>
    refine fun headers => calm_bind ?_ ih
    unfold headerStep
    split
    · exact calm_fail _
    · dsimp only
      split_ifs <;> first | exact calm_ok _ | exact calm_fail _

/-- Only a policy with a budget under a millisecond lets the parse panic. -/
theorem calm_parseHttpRequest {policy : EgressPolicy}
    (hbudget : 1000000 ≤ policy.timeout) : Calm (parseHttpRequest w input policy) := by
  unfold parseHttpRequest
  refine calm_bind (calm_mapError _ _) fun v => calm_bind (calm_failIf _ _) fun _ => ?_
  refine calm_bind (calm_failIf _ _) fun _ => calm_bind ?_ fun method => ?_
  · unfold parseMethod
    split
    · exact calm_ok _
    · exact calm_ok _
    · split <;> first | exact calm_ok _ | exact calm_fail _
  refine calm_bind (calm_mapError _ _) fun parsed => calm_bind ?_ fun parsed => ?_
  · unfold withQuery
    split
    · exact calm_ok _
    · split
      · exact calm_fail _
      · exact calm_bind (calm_queryPairs _) fun _ => calm_ok _
  refine calm_bind ?_ fun headers => calm_bind (calm_failIf _ _) fun _ => ?_
  · unfold parseHeaders
    dsimp only
    split
    · exact calm_ok _
    · split
      · exact calm_fail _
      · exact calm_headerSteps _ _
  refine calm_bind ?_ fun body => calm_bind ?_ fun _ => calm_bind ?_ fun saveTo => ?_
  · unfold parseBody
    split
    · exact calm_fail _
    · exact calm_ok _
    · exact calm_ok _
    · exact calm_ok _
    · exact calm_fail _
    · split
      · exact calm_fail _
      · split <;> exact calm_ok _
  · unfold checkBody
    split
    · exact calm_ok _
    · split_ifs <;> first | exact calm_ok _ | exact calm_fail _
  · unfold parseSaveTo
    split
    · exact calm_ok _
    · exact calm_ok _
    · dsimp only
      split
      · exact calm_fail _
      · exact calm_ok _
    · exact calm_fail _
  refine calm_bind (calm_failIf _ _) fun _ => calm_bind ?_ fun timeout => calm_ok _
  unfold parseTimeout
  split
  · exact calm_ok _
  · rw [if_neg (Nat.not_lt.2 hbudget)]
    exact calm_ok _

variable (w caps) in
/-- The reply is the last answer as a call without a save gets it. -/
def PlainAnswer (input : String) (run : Run) : Prop :=
  ∃ http req init hop resp current hops, caps.http = some http ∧
    parseHttpRequest w input caps.httpPolicy = .ok req ∧
    run.calls = init ++ [hop] ∧ http init hop = .ok resp ∧
    (run.reply = some (answer req none current hops resp).2 ∨
      ∃ loc, run.reply = some (redirectReply current hops resp loc))

variable (w caps) in
/-- A run that saves nothing: it replies with an error or the plain answer, or the policy's
budget is too small for the clamp of the timeout. -/
def Unsaved (input : String) (run : Run) : Prop :=
  run.saves = [] ∧
    ((∃ e, run.reply = some (errJson e)) ∨ PlainAnswer w caps input run ∨
      run.reply = none ∧ caps.httpPolicy.timeout < 1000000)

variable (w caps) in
/-- A run that saves: once, and what the last request was answered with. -/
def SavedWhole (input : String) (run : Run) : Prop :=
  ∃ http files req dest init hop resp reply,
    caps.http = some http ∧ caps.files = some files ∧
    parseHttpRequest w input caps.httpPolicy = .ok req ∧ req.saveTo = some dest ∧
    run.calls = init ++ [hop] ∧ http init hop = .ok resp ∧
    isRedirect resp.status = false ∧ Whole req resp ∧
    (∀ server full, http = readBounded server → server init hop = .ok full →
      resp.body = full.body) ∧
    run.saves = [(dest, resp.body, resp.contentType)] ∧
    run.reply = some reply ∧ SaveReply files dest resp reply

/-- The last request of a run was answered in full with a success. -/
def EndsWhole (http : HttpTransport) (req : HttpRequest) (run : Run) : Prop :=
  ∃ init hop resp, run.calls = init ++ [hop] ∧ http init hop = .ok resp ∧ Whole req resp

theorem not_endsWhole_of_moved {run : Run} (h : Moved http run.calls) :
    ¬EndsWhole http req run := by
  rintro ⟨init, hop, resp, hcalls, hresp, hwhole⟩
  have hstatus := h init hop resp hcalls hresp
  rw [hwhole.not_redirect] at hstatus
  cases hstatus

/-- A run whose last request was answered by `resp` ends whole when `resp` is. -/
theorem whole_of_endsWhole {run : Run} (hcalls : run.calls = init ++ [hop])
    (hresp : http init hop = .ok resp) (h : EndsWhole http req run) : Whole req resp := by
  obtain ⟨init', hop', resp', hcalls', hresp', hwhole⟩ := h
  obtain ⟨rfl, hlast⟩ := List.append_inj' (hcalls.symm.trans hcalls') rfl
  obtain rfl := List.singleton_inj.1 hlast
  obtain rfl := Except.ok.inj (hresp.symm.trans hresp')
  exact hwhole

/-- The store of a request with a save. -/
theorem preflight_some {files : FileSink} {dest : String}
    (h : preflight caps req = .ok (some (files, dest))) :
    caps.files = some files ∧ req.saveTo = some dest := by
  unfold preflight at h
  split at h
  · cases h
  rename_i dest' hdest
  split at h
  · cases h
  rename_i files' hfiles
  split at h
  · cases h
  · cases h
    exact ⟨hfiles, hdest⟩

/-- A request without a save has no store, and one with a save has one. -/
theorem preflight_none (h : preflight caps req = .ok none) : req.saveTo = none := by
  unfold preflight at h
  split at h
  · assumption
  · split at h
    · cases h
    · split at h <;> cases h

/-- A run saves as its last request ends. -/
theorem saves_of_ending {sink : Option (FileSink × String)} {run : Run}
    (hhttp : caps.http = some http) (hparse : parseHttpRequest w input caps.httpPolicy = .ok req)
    (hsink : preflight caps req = .ok sink) (hmax : hop.maxBytes = req.maxBytes)
    (hend : Ending http req sink init hop run) :
    SavedWhole w caps input run ∨
      Unsaved w caps input run ∧ (req.saveTo.isSome → ¬EndsWhole http req run) := by
  cases hend with
  | failed herr =>
    refine Or.inr ⟨⟨rfl, Or.inl ⟨_, rfl⟩⟩, fun _ => ?_⟩
    rintro ⟨init', hop', resp, hcalls, hresp, -⟩
    obtain ⟨rfl, hlast⟩ := List.append_inj' hcalls rfl
    obtain rfl := List.singleton_inj.1 hlast
    rw [herr] at hresp
    cases hresp
  | redirect hresp hstatus hreply =>
    refine Or.inr ⟨⟨rfl, ?_⟩, fun _ h => ?_⟩
    · rcases hreply with ⟨e, rfl⟩ | ⟨current, hops, loc, rfl⟩
      · exact Or.inl ⟨e, rfl⟩
      · exact Or.inr (Or.inl ⟨http, req, init, hop, _, current, hops, hhttp, hparse, rfl,
          hresp, Or.inr ⟨loc, rfl⟩⟩)
    · have hwhole := whole_of_endsWhole rfl hresp h
      rw [hwhole.not_redirect] at hstatus
      cases hstatus
  | @answered resp saves reply current hops hresp hanswer =>
    have hplain : answer req none current hops resp = (saves, reply) →
        PlainAnswer w caps input
          { calls := init ++ [hop], saves, reply := some reply } :=
      fun h => ⟨http, req, init, hop, resp, current, hops, hhttp, hparse, rfl, hresp,
        Or.inl (by rw [h])⟩
    rcases sink with _ | ⟨files, dest⟩
    · refine Or.inr ⟨⟨answer_none req hanswer, Or.inr (Or.inl (hplain hanswer))⟩, fun hsome => ?_⟩
      rw [preflight_none hsink] at hsome
      cases hsome
    obtain ⟨hfiles, hdest⟩ := preflight_some hsink
    rcases answer_cases req files dest current hops resp hanswer with
      ⟨hwhole, hsaves, hreply⟩ | ⟨hnot, hsaves, hreply⟩
    · refine Or.inl ⟨http, files, req, dest, init, hop, resp, reply, hhttp, hfiles, hparse,
        hdest, rfl, hresp, hwhole.not_redirect, hwhole, ?_, hsaves, rfl, hreply⟩
      rintro server full rfl hfull
      exact readBounded_whole hfull hresp (hmax ▸ hwhole.2.2)
    · refine Or.inr ⟨⟨hsaves, ?_⟩, fun _ h => hnot (whole_of_endsWhole rfl hresp h)⟩
      rcases hreply with ⟨e, rfl⟩ | h
      · exact Or.inl ⟨e, rfl⟩
      · exact Or.inr (Or.inl (hplain h))

variable (w caps) in
/-- A run that stops with an error before a request saves nothing. -/
theorem unsaved_of_error (input e : String) {made : List HttpRequest}
    (hmoved : ∀ http, caps.http = some http → Moved http made) :
    Unsaved w caps input { calls := made, reply := some (errJson e) } ∧
      ∀ http req, caps.http = some http →
        ¬EndsWhole http req { calls := made, reply := some (errJson e) } :=
  ⟨⟨rfl, Or.inl ⟨e, rfl⟩⟩, fun _ _ hhttp => not_endsWhole_of_moved (hmoved _ hhttp)⟩

theorem moved_nil (http : HttpTransport) : Moved http [] := by
  intro init hop resp hcalls
  simp at hcalls

variable (w caps) in
/-- **Whole or nothing.**  A run calls the sink at most once, with all of the body of a final
success within the cap; or it saves nothing, and then no such answer came to a request with a
save and the reply is an error or the plain answer. -/
theorem guardedHttpRequest_saves (input : String) :
    SavedWhole w caps input (guardedHttpRequest w caps input) ∨
      Unsaved w caps input (guardedHttpRequest w caps input) ∧
        ∀ http req, caps.http = some http →
          parseHttpRequest w input caps.httpPolicy = .ok req → req.saveTo.isSome →
          ¬EndsWhole http req (guardedHttpRequest w caps input) := by
  have hstop (e : String) := unsaved_of_error w caps input e fun http _ => moved_nil http
  unfold guardedHttpRequest
  split
  · exact Or.inr ⟨(hstop _).1, fun http req hhttp _ _ => (hstop _).2 http req hhttp⟩
  rename_i http hhttp
  split
  · rename_i hparse
    refine Or.inr ⟨⟨rfl, Or.inr (Or.inr ⟨rfl, ?_⟩)⟩,
      fun http req _ _ _ => not_endsWhole_of_moved (moved_nil http)⟩
    by_contra hbudget
    exact calm_parseHttpRequest (Nat.not_lt.1 hbudget) hparse
  · exact Or.inr ⟨(hstop _).1, fun http req hhttp _ _ => (hstop _).2 http req hhttp⟩
  · rename_i req hparse
    split
    · exact Or.inr ⟨(hstop _).1, fun http req hhttp _ _ => (hstop _).2 http req hhttp⟩
    split
    · exact Or.inr ⟨(hstop _).1, fun http req hhttp _ _ => (hstop _).2 http req hhttp⟩
    rename_i sink hsink
    rcases requestLoop_ends w caps http req sink maxRedirects 0 [] req.url
      (moved_nil http) with ⟨made, e, hmoved, hrun⟩ | ⟨init, hop, hmax, hend⟩
    · rw [hrun]
      have hmade : ∀ http', caps.http = some http' → Moved http' made := by
        intro http' hhttp'
        obtain rfl := Option.some.inj (hhttp.symm.trans hhttp')
        exact hmoved
      obtain ⟨hunsaved, hnot⟩ := unsaved_of_error w caps input e hmade
      exact Or.inr ⟨hunsaved, fun http' req' hhttp' _ _ => hnot http' req' hhttp'⟩
    · refine (saves_of_ending hhttp hparse hsink hmax hend).imp_right ?_
      rintro ⟨hunsaved, hnot⟩
      refine ⟨hunsaved, fun http' req' hhttp' hparse' hsome => ?_⟩
      obtain rfl := Option.some.inj (hhttp.symm.trans hhttp')
      obtain rfl := Except.ok.inj (hparse.symm.trans hparse')
      exact hnot hsome

end Save

/-! ## A server that names the secret -/

/-- A URL of the sample. -/
private structure SampleUrl where
  scheme : String
  host : String
  text : String

/-- Two hosts, at a public address; a text is a URL when it is listed. -/
private def sampleWorld (body : Json) : World SampleUrl where
  parse := fun s =>
    if s = "https://a/" then .ok ⟨"https", "a", s⟩
    else if s = "https://b/?token-a1" then .ok ⟨"https", "b", s⟩
    else if s = "http://a/" then .ok ⟨"http", "a", s⟩
    else .error "relative URL without a base"
  scheme := SampleUrl.scheme
  username := fun _ => ""
  password := fun _ => none
  hostStr := fun u => some u.host
  port := fun _ => none
  portOrKnownDefault := fun _ => some 443
  appendPairs := fun u _ => u
  join := fun _ loc => .ok ⟨"https", "b", loc⟩
  toText := SampleUrl.text
  parseIp := fun _ => none
  toSocketAddrs := fun hop _ _ =>
    if hop < 4 then .ok [.v4 ⟨1, 1, 1, 1⟩] else .error "timed out"
  fromStr := fun _ => .ok body
  toVec := fun _ => .ok []
  numberText := fun _ => ""
  durationText := fun _ => ""
  elapsed := fun hop => hop

/-- The transport of a server that sends the caller on, with the secret it was
given in the target. -/
private def echoingCaps : Capabilities where
  http := some (fun calls _ =>
    .ok { status := if calls = [] then 302 else 200, contentType := "", body := [],
          location := some "https://b/?token-a1", headers := [] })
  secrets := [⟨"a", ⟨"authorization", by decide⟩, "token-a1"⟩]
  outboundSecrets := add {} "a /guardian secret" "token-a1"

private def plainPost : World SampleUrl :=
  sampleWorld (.obj [("url", .str "http://a/"), ("method", .str "POST")])

private def getFromA : World SampleUrl :=
  sampleWorld (.obj [("url", .str "https://a/")])

/-- A POST that is not for `https` makes no request at all; and a stored
secret's value reaches a host that is not its own, in the URL of a redirect. -/
theorem guardedHttpRequest_refused_and_echoed :
    ((parseHttpRequest plainPost "" echoingCaps.httpPolicy).toOption.map
        HttpRequest.method = some .post ∧
      (guardedHttpRequest plainPost echoingCaps "").calls.length = 0) ∧
    (guardedHttpRequest getFromA echoingCaps "").calls.map (fun hop => (hop.url,
        hop.headers.entries.map (fun h => (h.1.1, h.2)))) =
      [("https://a/", [("authorization", "token-a1")]),
        ("https://b/?token-a1", [])] := by
  refine ⟨⟨?_, ?_⟩, ?_⟩ <;> decide +kernel

theorem guardedHttpRequest_reaches_redirect : ∃ (hop : HttpRequest) (parsed : SampleUrl),
    Accepted getFromA.toNetwork echoingCaps.httpPolicy 1 hop.url parsed := by
  have hsome : (guardedHttpRequest getFromA echoingCaps "").calls[1]?.isSome := by decide +kernel
  obtain ⟨hop, h⟩ := Option.isSome_iff_exists.1 hsome
  exact ⟨hop, guardedHttpRequest_reaches _ _ _ h⟩

/-- The secret in base64. -/
theorem guardedHttpRequest_no_secret_sample :
    (guardedHttpRequest getFromA echoingCaps "dG9rZW4tYTE").calls = [] := by
  cases hreq : parseHttpRequest getFromA "dG9rZW4tYTE" echoingCaps.httpPolicy with
  | error e => exact absurd (congrArg Except.isOk hreq) (by change _ ≠ false; decide +kernel)
  | ok req =>
    exact @guardedHttpRequest_no_secret _ _ _ _ {} _ "token-a1" "dG9rZW4tYTE" _ [] req rfl
      (by decide) (by decide +kernel) (by decide) hreq List.mem_cons_self (by decide +kernel)

end EmbraOS.Ports.Http
