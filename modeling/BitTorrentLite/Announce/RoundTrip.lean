import BitTorrentLite.Announce.Request

/-! # From the Announce URL to the Tracker's Parameters

    For a URL with no query of its own, and no `:` in its host, the tracker
    finds every parameter that was sent. With a query, `info_hash` is lost in
    the last parameter of the URL, so that only a URL which repeats the
    parameters that are sent could get them all through.
-/

open Machine Bencode

namespace BitTorrentLite

/-- The tracker has the parameters that were sent and those of the URL. -/
structure Recovered (SHA1 : Bytes → Digest) (u : Url) (info_raw : Bytes)
    (sent : List (Bytes × Bytes)) (params : Bytes → Option Bytes) : Prop where
  info_hash : ∃ v, params (ascii "info_hash") = some v ∧ percent_decode v = (SHA1 info_raw).val
  sent : ∀ p ∈ sent, params p.1 = some p.2
  own : ∀ ps, u.query = some ps → ∀ p ∈ ps, params p.1 = some p.2

/-- The announce of a torrent with this URL, from the URL to the tracker's map. -/
def AnnounceRoundTrip (SHA1 : Bytes → Digest) (u : Url) (t : Torrent) (info_raw : Bytes)
    (rand : ℕ → ℕ) (leecher : Bool) : Prop :=
  ∃ tracker request, locate_tracker t.announce = .ok tracker ∧ u.Recomposes tracker ∧
    announce_request SHA1 leecher t info_raw rand = .ok request ∧
    Recovered SHA1 u info_raw (sent_pairs (generatePeerId leecher rand) t.length leecher)
      (handle_client request)

/-- A query that repeats what is sent: its last parameter is one that is sent
    again behind the info-hash, the info-hash is among the parameters before,
    and no parameter has two values. -/
def Repeats (SHA1 : Bytes → Digest) (info_raw : Bytes) (sent ps : List (Bytes × Bytes)) : Prop :=
  (∃ init p, ps = init ++ [p] ∧ p ∈ sent ∧
    ∃ v, (ascii "info_hash", v) ∈ init ∧ percent_decode v = (SHA1 info_raw).val) ∧
  ∀ k v w, (k, v) ∈ ps ++ sent → (k, w) ∈ ps ++ sent → v = w

section roundtrip

variable {SHA1 : Bytes → Digest} {u : Url} {t : Torrent} {info_raw : Bytes} {rand : ℕ → ℕ}
  {leecher : Bool} {sent : List (Bytes × Bytes)}

/-! ### The Pairs the Tracker Finds -/

/-- The query of the request, behind the first `?`. -/
def Url.sent_query (u : Url) (hash : Bytes × Bytes) (sent : List (Bytes × Bytes)) : Bytes :=
  match u.query with
  | none => render_query (hash :: sent)
  | some ps => render_query ps ++ '?'.toUInt8 :: render_query (hash :: sent)

theorem target_query (u : Url) (hash : Bytes × Bytes) (sent : List (Bytes × Bytes)) :
    u.target ++ '?'.toUInt8 :: render_query (hash :: sent)
      = u.path ++ '?'.toUInt8 :: u.sent_query hash sent := by
  unfold Url.target Url.sent_query
  cases u.query with
  | none => rw [List.append_nil]
  | some ps => rw [List.append_assoc, List.cons_append]

theorem no_space_sent_query (hu : u.WellFormed) {hash : Bytes × Bytes} (hhash : UrlPair hash)
    (hsent : ∀ p ∈ sent, UrlPair p) : ∀ b ∈ u.sent_query hash sent, is_space b = false := by
  have hrequest := no_space_render_query (List.forall_mem_cons.mpr ⟨hhash, hsent⟩)
  unfold Url.sent_query
  cases hq : u.query with
  | none => exact hrequest
  | some ps =>
    intro b hb
    rcases List.mem_append.mp hb with hown | hb
    · exact no_space_render_query (hu.query ps hq) b hown
    · rcases List.mem_cons.mp hb with rfl | hb
      · decide
      · exact hrequest b hb

/-- With a query of its own, the last pair of the URL takes up the info-hash. -/
theorem render_query_glued (init : List (Bytes × Bytes)) (p hash : Bytes × Bytes)
    (sent : List (Bytes × Bytes)) :
    render_query (init ++ [p]) ++ '?'.toUInt8 :: render_query (hash :: sent)
      = render_query (init ++ (p.1, p.2 ++ '?'.toUInt8 :: render_pair hash) :: sent) := by
  have hlast : render_query [p] ++ '?'.toUInt8 :: render_query (hash :: sent)
      = render_query ((p.1, p.2 ++ '?'.toUInt8 :: render_pair hash) :: sent) := by
    cases sent with
    | nil => simp [render_query, render_pair]
    | cons q sent => simp [render_query, render_pair]
  by_cases hnil : init = []
  · subst hnil
    exact hlast
  · rw [render_query_append hnil (by simp), render_query_append hnil (by simp), ← hlast,
      List.append_assoc, List.cons_append]

/-- A pair that has taken up the info-hash still parses as one pair. -/
theorem separable_glued {p hash : Bytes × Bytes} (hp : Separable p) (hhash : Separable hash) :
    Separable (p.1, p.2 ++ '?'.toUInt8 :: render_pair hash) where
  key_eq := hp.key_eq
  key_amp := hp.key_amp
  value_amp := by
    rw [List.mem_append, List.mem_cons]
    rintro (hin | heq | hin)
    · exact hp.value_amp hin
    · exact absurd heq (by decide)
    · exact hhash.not_mem hin

/-- The pairs the tracker assigns, in order. -/
def Url.read_pairs (u : Url) (hash : Bytes × Bytes) (sent : List (Bytes × Bytes)) :
    List (Bytes × Bytes) :=
  match u.query with
  | none => hash :: sent
  | some ps => match ps.getLast? with
    -- an empty query: the second `?` starts the first key
    | none => ('?'.toUInt8 :: hash.1, hash.2) :: sent
    | some p => ps.dropLast ++ (p.1, p.2 ++ '?'.toUInt8 :: render_pair hash) :: sent

theorem parse_sent_query (hu : u.WellFormed) {hash : Bytes × Bytes} (hhash : UrlPair hash)
    (hsent : ∀ p ∈ sent, UrlPair p) :
    parse_query (u.sent_query hash sent) = assign (fun _ => none) (u.read_pairs hash sent) := by
  have hseps : ∀ p ∈ sent, Separable p := fun p hp => (hsent p hp).toSeparable
  unfold Url.sent_query Url.read_pairs
  cases hq : u.query with
  | none =>
    exact parse_query_render fun p hp => (List.mem_cons.mp hp).elim
      (fun h => h ▸ hhash.toSeparable) (hseps p)
  | some ps =>
    dsimp only
    cases hlast : ps.getLast? with
    | none =>
      obtain rfl := List.getLast?_eq_none_iff.mp hlast
      have hmark : Separable ('?'.toUInt8 :: hash.1, hash.2) :=
        { key_eq := by
            rw [List.mem_cons, not_or]
            exact ⟨by decide, hhash.key_eq⟩
          key_amp := by
            rw [List.mem_cons, not_or]
            exact ⟨by decide, hhash.key_amp⟩
          value_amp := hhash.value_amp }
      have hrender : render_query [] ++ '?'.toUInt8 :: render_query (hash :: sent)
          = render_query (('?'.toUInt8 :: hash.1, hash.2) :: sent) := by
        cases sent <;> rfl
      rw [hrender]
      exact parse_query_render fun p hp => (List.mem_cons.mp hp).elim
        (fun h => h ▸ hmark) (hseps p)
    | some p =>
      have hps : ps = ps.dropLast ++ [p] := (List.dropLast_append_getLast? p hlast).symm
      have hmem : ∀ q ∈ ps.dropLast ++ [p], Separable q := fun q hq' =>
        (hu.query ps hq q (hps ▸ hq')).toSeparable
      have hrender := render_query_glued ps.dropLast p hash sent
      rw [← hps] at hrender
      dsimp only
      rw [hrender]
      refine parse_query_render fun q hq' => ?_
      rcases List.mem_append.mp hq' with hinit | hrest
      · exact hmem q (List.mem_append_left _ hinit)
      · rcases List.mem_cons.mp hrest with rfl | hrest
        · exact separable_glued (hmem p (by simp)) hhash.toSeparable
        · exact hseps q hrest

/-! ### What the Map Holds -/

/-- A list of pairs in which no key has two values. -/
def SingleValued (ps : List (Bytes × Bytes)) : Prop :=
  ∀ k v w, (k, v) ∈ ps → (k, w) ∈ ps → v = w

theorem singleValued_of_nodup {ps : List (Bytes × Bytes)} (h : (ps.map Prod.fst).Nodup) :
    SingleValued ps := by
  intro k v w hv hw
  exact (Prod.mk.inj (List.inj_on_of_nodup_map h hv hw rfl)).2

/-- What is assigned last stays. -/
theorem assign_sent (init : List (Bytes × Bytes)) {k : Bytes} (h : ∃ v, (k, v) ∈ sent) :
    ∃ v, (k, v) ∈ sent ∧ assign (fun _ => none) (init ++ sent) k = some v := by
  rw [assign_append]
  exact assign_mem h

/-- A key that is not sent holds what the pairs before left. -/
theorem assign_not_sent {init : List (Bytes × Bytes)} {k : Bytes} (h : ∀ v, (k, v) ∉ sent) :
    assign (fun _ => none) (init ++ sent) k = assign (fun _ => none) init k := by
  rw [assign_append]
  exact assign_other h

section glued

variable {init : List (Bytes × Bytes)} {p q : Bytes × Bytes} {glue : Bytes}

/-- The last pair of the URL's own query is lost, unless its key is sent again. -/
theorem sent_of_recovered
    (hown : assign (fun _ => none) (init ++ [(p.1, p.2 ++ '?'.toUInt8 :: glue)] ++ sent) p.1
      = some p.2) : ∃ w, (p.1, w) ∈ sent := by
  by_contra hnot
  rw [not_exists] at hnot
  have hlast : assign (fun _ => none) (init ++ [(p.1, p.2 ++ '?'.toUInt8 :: glue)]) p.1
      = some (p.2 ++ '?'.toUInt8 :: glue) := by
    rw [assign_append]
    exact Function.update_self ..
  rw [assign_not_sent hnot, hlast] at hown
  have hglued := Option.some.inj hown
  have hlen := congrArg List.length hglued
  rw [List.length_append, List.length_cons] at hlen
  omega

/-- When it is sent again and no key has two values, every pair gets through. -/
theorem assign_glued (hval : SingleValued ((init ++ [p]) ++ sent)) (hp : p ∈ sent) {k v : Bytes}
    (hkv : (k, v) ∈ (init ++ [p]) ++ sent) :
    assign (fun _ => none) (init ++ [(p.1, p.2 ++ '?'.toUInt8 :: glue)] ++ sent) k = some v := by
  by_cases hsent : ∃ w, (k, w) ∈ sent
  · obtain ⟨w, hw, hassign⟩ :=
      assign_sent (init ++ [(p.1, p.2 ++ '?'.toUInt8 :: glue)]) hsent
    rw [hassign, hval k v w hkv (List.mem_append_right _ hw)]
  -- a key of the URL alone, and not the last one
  · rw [not_exists] at hsent
    have hne : k ≠ p.1 := by
      rintro rfl
      exact hsent p.2 hp
    have hinit : (k, v) ∈ init := by
      rcases List.mem_append.mp hkv with hkv | hkv
      · rcases List.mem_append.mp hkv with hkv | hkv
        · exact hkv
        · exact absurd (congrArg Prod.fst (List.mem_singleton.mp hkv)) hne
      · exact absurd hkv (hsent v)
    rw [assign_not_sent hsent]
    refine assign_eq (List.mem_append_left _ hinit) fun w hw => ?_
    rcases List.mem_append.mp hw with hw | hw
    · exact hval k w v (List.mem_append_left _ (List.mem_append_left _ hw)) hkv
    · exact absurd (congrArg Prod.fst (List.mem_singleton.mp hw)) hne

/-- With a query of its own: just when the query repeats what is sent. -/
theorem recovered_query_iff (hq : u.query = some (init ++ [p]))
    (hnot : ∀ v, (ascii "info_hash", v) ∉ sent) :
    Recovered SHA1 u info_raw sent
        (assign (fun _ => none) (init ++ [(p.1, p.2 ++ '?'.toUInt8 :: glue)] ++ sent)) ↔
      Repeats SHA1 info_raw sent (init ++ [p]) := by
  constructor
  · intro h
    have hall : ∀ q ∈ (init ++ [p]) ++ sent, assign (fun _ => none)
        (init ++ [(p.1, p.2 ++ '?'.toUInt8 :: glue)] ++ sent) q.1 = some q.2 := by
      intro q hq'
      rcases List.mem_append.mp hq' with hown | hsent
      · exact h.own _ hq q hown
      · exact h.sent q hsent
    have hval : SingleValued ((init ++ [p]) ++ sent) := fun k v w hv hw =>
      Option.some.inj ((hall (k, v) hv).symm.trans (hall (k, w) hw))
    have hlast : p ∈ (init ++ [p]) ++ sent := by simp
    obtain ⟨w, hw⟩ := sent_of_recovered (hall p hlast)
    have hp : p ∈ sent := by
      rw [← hval p.1 p.2 w hlast (List.mem_append_right _ hw)] at hw
      exact hw
    obtain ⟨v, hv, hdecode⟩ := h.info_hash
    refine ⟨⟨init, p, rfl, hp, v, ?_, hdecode⟩, hval⟩
    -- the info-hash the map holds is not that of the request
    rw [assign_not_sent hnot] at hv
    rcases List.mem_append.mp (mem_of_assign hv) with hv | hv
    · exact hv
    · have hkey : ascii "info_hash" = p.1 := congrArg Prod.fst (List.mem_singleton.mp hv)
      refine absurd ?_ (hnot p.2)
      rw [hkey]
      exact hp
  · rintro ⟨⟨init', p', heq, hp, v, hv, hdecode⟩, hval⟩
    obtain ⟨rfl, hp'⟩ := List.append_inj' heq rfl
    obtain rfl := List.singleton_inj.mp hp'
    refine ⟨⟨v, assign_glued hval hp (List.mem_append_left _ (List.mem_append_left _ hv)),
      hdecode⟩, fun q hsent => assign_glued hval hp (List.mem_append_right _ hsent),
      fun ps hps q hown => ?_⟩
    obtain rfl := Option.some.inj (hps.symm.trans hq)
    exact assign_glued hval hp (List.mem_append_left _ hown)

end glued

/-- Without a query of its own: always. -/
theorem recovered_no_query (hq : u.query = none)
    (hkeys : ((hash_pair SHA1 info_raw :: sent).map Prod.fst).Nodup) :
    Recovered SHA1 u info_raw sent
      (assign (fun _ => none) (hash_pair SHA1 info_raw :: sent)) := by
  have hval := singleValued_of_nodup hkeys
  have hall : ∀ p ∈ hash_pair SHA1 info_raw :: sent,
      assign (fun _ => none) (hash_pair SHA1 info_raw :: sent) p.1 = some p.2 :=
    fun p hp => assign_eq hp fun w hw => hval p.1 w p.2 hw hp
  refine ⟨⟨_, hall _ (List.mem_cons_self ..), percent_decode_url_encode _⟩,
    fun p hp => hall p (List.mem_cons_of_mem _ hp), fun ps hps => ?_⟩
  rw [hq] at hps
  cases hps

/-- With an empty query: never, as the second `?` ends up in the first key. -/
theorem not_recovered_empty {v : Bytes} (hnot : ∀ v, (ascii "info_hash", v) ∉ sent) :
    ¬ Recovered SHA1 u info_raw sent
      (assign (fun _ => none) (('?'.toUInt8 :: ascii "info_hash", v) :: sent)) := by
  intro h
  obtain ⟨w, hw, -⟩ := h.info_hash
  rcases List.mem_cons.mp (mem_of_assign hw) with heq | hw
  · have hkey : ascii "info_hash" = '?'.toUInt8 :: ascii "info_hash" := congrArg Prod.fst heq
    exact absurd hkey (by decide)
  · exact hnot w hw

/-- **What the tracker recovers**: everything, if the URL has no query or one
    that repeats what is sent. -/
theorem recovered_iff (hkeys : ((hash_pair SHA1 info_raw :: sent).map Prod.fst).Nodup) :
    Recovered SHA1 u info_raw sent
        (assign (fun _ => none) (u.read_pairs (hash_pair SHA1 info_raw) sent)) ↔
      u.query = none ∨ ∃ ps, u.query = some ps ∧ Repeats SHA1 info_raw sent ps := by
  have hnot : ∀ v, (ascii "info_hash", v) ∉ sent := by
    intro v hv
    rw [List.map_cons, List.nodup_cons] at hkeys
    exact hkeys.1 (List.mem_map.mpr ⟨_, hv, rfl⟩)
  unfold Url.read_pairs
  cases hq : u.query with
  | none => exact ⟨fun _ => .inl rfl, fun _ => recovered_no_query hq hkeys⟩
  | some ps =>
    rw [or_iff_right (by simp)]
    simp only [Option.some.injEq, exists_eq_left']
    cases hlast : ps.getLast? with
    | none =>
      refine ⟨fun h => absurd h (not_recovered_empty hnot), ?_⟩
      rintro ⟨⟨init, p, rfl, -⟩, -⟩
      simp at hlast
    | some p =>
      have hps : ps = ps.dropLast ++ [p] := (List.dropLast_append_getLast? p hlast).symm
      have hiff : Recovered SHA1 u info_raw sent (assign (fun _ => none) (ps.dropLast
            ++ [(p.1, p.2 ++ '?'.toUInt8 :: render_pair (hash_pair SHA1 info_raw))] ++ sent)) ↔
          Repeats SHA1 info_raw sent (ps.dropLast ++ [p]) :=
        recovered_query_iff (hps ▸ hq) hnot
      rw [← hps, ← List.append_cons] at hiff
      exact hiff

/-! ### The Announce -/

/-- What the tracker reads of the request of a client that knows where it is. -/
theorem handle_client_announce (SHA1 : Bytes → Digest) (hu : u.WellFormed) (hhost : ':'.toUInt8 ∉ u.host)
    (ht : t.announce = u.text) : ∃ request,
      announce_request SHA1 leecher t info_raw rand = .ok request ∧
      handle_client request = assign (fun _ => none) (u.read_pairs (hash_pair SHA1 info_raw)
        (sent_pairs (generatePeerId leecher rand) t.length leecher)) := by
  have hsent : ∀ p ∈ sent_pairs (generatePeerId leecher rand) t.length leecher, UrlPair p :=
    urlPair_sent_pairs inert_generatePeerId
  have hhash : UrlPair (hash_pair SHA1 info_raw) := urlPair_hash_pair
  have hline : ∃ rest, req_url SHA1 u.target (generatePeerId leecher rand) info_raw t.length
      u.host (u.port.getD 80 : ℕ) leecher listening_port = _ := req_url_eq
  obtain ⟨rest, hline⟩ := hline
  refine ⟨_, by rw [announce_request, ht, Url.locate_tracker_text hu hhost]; rfl, ?_⟩
  dsimp only
  rw [hline, target_query, handle_client_request hu.path_plain
    (no_space_sent_query hu hhash hsent), parse_sent_query hu hhash hsent]

/-- **Announce round trip**: just when the URL has no `:` in its host, and no
    query of its own or one that repeats what is sent. -/
theorem announce_round_trip (SHA1 : Bytes → Digest) {u : Url} (hu : u.WellFormed) {t : Torrent}
    (ht : t.announce = u.text) (info_raw : Bytes) (rand : ℕ → ℕ) (leecher : Bool) :
    AnnounceRoundTrip SHA1 u t info_raw rand leecher ↔
      ':'.toUInt8 ∉ u.host ∧ (u.query = none ∨ ∃ ps, u.query = some ps ∧
        Repeats SHA1 info_raw (sent_pairs (generatePeerId leecher rand) t.length leecher) ps) := by
  by_cases hhost : ':'.toUInt8 ∈ u.host
  · refine ⟨?_, fun h => absurd hhost h.1⟩
    rintro ⟨tracker, request, hlocate, hrecomposes, -⟩
    rw [ht] at hlocate
    exact absurd hrecomposes (Url.not_recomposes hu hhost hlocate)
  · obtain ⟨request, hrequest, hparams⟩ := handle_client_announce SHA1 hu hhost ht
    have hlocate := Url.locate_tracker_text hu hhost
    rw [← recovered_iff keys_nodup, and_iff_right hhost, ← hparams]
    constructor
    · rintro ⟨-, request', -, -, hrequest', hrecovered⟩
      obtain rfl := Except.ok.inj (hrequest.symm.trans hrequest')
      exact hrecovered
    · intro hrecovered
      exact ⟨_, request, ht ▸ hlocate, u.recomposes, hrequest, hrecovered⟩

end roundtrip

/-- A tracker on port 8080, with these parameters in its URL. -/
def tracker_url (query : Option (List (Bytes × Bytes))) : Url where
  scheme := ascii "http"
  host := ascii "t.co"
  port := some 8080
  path := ascii "/announce"
  query := query

theorem tracker_url_wellFormed {query : Option (List (Bytes × Bytes))}
    (h : ∀ ps, query = some ps → ∀ p ∈ ps, UrlPair p) : (tracker_url query).WellFormed where
  scheme := (by decide : ':'.toUInt8 ∉ ascii "http")
  host := (by decide : '/'.toUInt8 ∉ ascii "t.co")
  address := fun h => absurd h (by decide : ':'.toUInt8 ∉ ascii "t.co")
  port := fun port h => by
    obtain rfl := Option.some.inj h
    decide
  path := ⟨ascii "announce", rfl⟩
  path_plain := forall_bytes (s := ascii "/announce") (by decide)
  query := h

/-- A torrent with such a URL. -/
def announced (query : Option (List (Bytes × Bytes))) : Torrent :=
  { announce := (tracker_url query).text, length := 1 }

/-- A digest of zeros. -/
def zero_digest (_ : Bytes) : Digest := .zero

/-- Without parameters in the URL, all goes well. -/
theorem plain_announce : AnnounceRoundTrip zero_digest (tracker_url none) (announced none)
    (ascii "de") (fun _ => 7) true :=
  (announce_round_trip zero_digest (tracker_url_wellFormed fun _ h => by cases h) rfl
    (ascii "de") (fun _ => 7) true).mpr ⟨by decide, .inl rfl⟩

/-- The URL of a tracker that tells its users apart by a passkey. -/
def passkey : List (Bytes × Bytes) := [(ascii "passkey", ascii "x")]

/-- **A passkey is not recovered**, and neither is the info-hash. -/
theorem passkey_lost : (tracker_url (some passkey)).WellFormed ∧
    ¬ AnnounceRoundTrip zero_digest (tracker_url (some passkey)) (announced (some passkey))
      (ascii "de") (fun _ => 7) true := by
  constructor
  · refine tracker_url_wellFormed fun ps h p hp => ?_
    obtain rfl := Option.some.inj h
    obtain rfl := List.mem_singleton.mp hp
    exact ⟨⟨by decide, by decide, by decide⟩, forall_bytes (by decide), forall_bytes (by decide)⟩
  · rintro ⟨tracker, request, -, -, hrequest, hrecovered⟩
    obtain ⟨v, hv, -⟩ := hrecovered.info_hash
    have hnone : (announce_request zero_digest true (announced (some passkey)) (ascii "de")
        (fun _ => 7)).map (fun r => handle_client r (ascii "info_hash")) = .ok none := by
      decide +kernel
    rw [hrequest] at hnone
    have hnone : handle_client request (ascii "info_hash") = none := Except.ok.inj hnone
    rw [hv] at hnone
    cases hnone

end BitTorrentLite
