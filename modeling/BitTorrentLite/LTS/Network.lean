import Mathlib.Logic.Function.Basic
import BitTorrentLite.LTS.System

/-! # Networks

    Components that talk to each other through ports. A label says what is
    read at which port and a step what is sent there. A network runs any
    number of components, with a first-in first-out queue before every port;
    two ports are linked at any time, once and for all.

    * **Contracts**: when every component keeps its part as long as it reads
      good messages, and then sends only good ones, every component keeps its
      part and every message on its way is good.
    * **Projection**: each component runs as it does alone, reading good
      messages only.
    * **Knowledge**: what a component believes of the one at the other end of
      a link is true, when messages tell only what holds at their sender and
      what holds goes on holding.
-/

namespace LTS

universe u v w x y

variable {ι : Type y} {State : Type u} {Port : Type v} {Msg : Type w} {Label : Type x}

/-- A system with ports: what a label reads, and what a step sends. -/
structure Component (State : Type u) (Port : Type v) (Msg : Type w) (Label : Type x) where
  start : State
  next : State → Label → Option State
  reads : Label → Option (Port × Msg)
  sends : State → Label → Option (Port × Msg)

/-- The runs of a component alone, whatever it reads. -/
def Component.system (K : Component State Port Msg Label) : System State Label where
  init := fun s => s = K.start
  step := fun s l s' => K.next s l = some s'

/-- The state of a network. -/
structure Network (ι : Type y) (State : Type u) (Port : Type v) (Msg : Type w) where
  node : ι → State
  /-- The other end of the link at a port, if there is one. -/
  link : ι × Port → Option (ι × Port)
  inbox : ι × Port → List Msg

/-- The steps of a network. -/
inductive NetEvent (ι : Type y) (Port : Type v) (Label : Type x) where
  | connect (e e' : ι × Port)
  | act (i : ι) (l : Label)

namespace Network

/-! ## Steps -/

section steps

/-- Every component at its start, nothing linked. -/
def start (K : ι → Component State Port Msg Label) : Network ι State Port Msg where
  node := fun i => (K i).start
  link := fun _ => none
  inbox := fun _ => []

variable [DecidableEq ι]

/-- The component `i` goes on in the state `s`. -/
def moved (n : Network ι State Port Msg) (i : ι) (s : State) : Network ι State Port Msg :=
  { n with node := Function.update n.node i s }

theorem moved_node_self (n : Network ι State Port Msg) (i : ι) (s : State) :
    (n.moved i s).node i = s := Function.update_self ..

theorem moved_node_ne (n : Network ι State Port Msg) {i j : ι} (s : State) (h : j ≠ i) :
    (n.moved i s).node j = n.node j := Function.update_of_ne h ..

variable [DecidableEq Port]

/-- The queue before the port `e` is now `msgs`. -/
def queued (n : Network ι State Port Msg) (e : ι × Port) (msgs : List Msg) :
    Network ι State Port Msg :=
  { n with inbox := Function.update n.inbox e msgs }

theorem queued_inbox_self (n : Network ι State Port Msg) (e : ι × Port) (msgs : List Msg) :
    (n.queued e msgs).inbox e = msgs := Function.update_self ..

theorem queued_inbox_ne (n : Network ι State Port Msg) {e e' : ι × Port} (msgs : List Msg)
    (h : e' ≠ e) : (n.queued e msgs).inbox e' = n.inbox e' := Function.update_of_ne h ..

/-- The ports `e` and `e'` are linked. -/
def linked (n : Network ι State Port Msg) (e e' : ι × Port) : Network ι State Port Msg :=
  { n with link := Function.update (Function.update n.link e (some e')) e' (some e) }

/-- A link that was there before, or the new one. -/
theorem linked_link {n : Network ι State Port Msg} {a b e e' : ι × Port}
    (h : (n.linked a b).link e = some e') :
    n.link e = some e' ∨ (e = a ∧ e' = b) ∨ (e = b ∧ e' = a) := by
  change Function.update (Function.update n.link a (some b)) b (some a) e = _ at h
  by_cases heb : e = b
  · subst heb
    rw [Function.update_self] at h
    exact .inr (.inr ⟨rfl, (Option.some.inj h).symm⟩)
  · rw [Function.update_of_ne heb] at h
    by_cases hea : e = a
    · subst hea
      rw [Function.update_self] at h
      exact .inr (.inl ⟨rfl, (Option.some.inj h).symm⟩)
    · rw [Function.update_of_ne hea] at h
      exact .inl h

/-- A message sent at `e` goes to the end of the queue at the other end. -/
def post (n : Network ι State Port Msg) (e : ι × Port) (msg : Msg) :
    Option (Network ι State Port Msg) :=
  (n.link e).map fun e' => n.queued e' (n.inbox e' ++ [msg])

/-- What one step of a network can do. -/
inductive Stepped (K : ι → Component State Port Msg Label) (n : Network ι State Port Msg) :
    NetEvent ι Port Label → Network ι State Port Msg → Prop where
  | connected (e e' : ι × Port) : e ≠ e' → n.link e = none → n.link e' = none →
      Stepped K n (.connect e e') (n.linked e e')
  | silent (i : ι) (l : Label) (s : State) : (K i).system.step (n.node i) l s →
      (K i).reads l = none → (K i).sends (n.node i) l = none →
      Stepped K n (.act i l) (n.moved i s)
  | read (i : ι) (l : Label) (s : State) (p : Port) (msg : Msg) (rest : List Msg) :
      (K i).system.step (n.node i) l s → (K i).reads l = some (p, msg) →
      (K i).sends (n.node i) l = none → n.inbox (i, p) = msg :: rest →
      Stepped K n (.act i l) ((n.moved i s).queued (i, p) rest)
  | sent (i : ι) (l : Label) (s : State) (p : Port) (msg : Msg) (e : ι × Port) :
      (K i).system.step (n.node i) l s → (K i).reads l = none →
      (K i).sends (n.node i) l = some (p, msg) → n.link (i, p) = some e →
      Stepped K n (.act i l) ((n.moved i s).queued e (n.inbox e ++ [msg]))

variable {K : ι → Component State Port Msg Label} {n n' : Network ι State Port Msg}
  {ev : NetEvent ι Port Label}

/-- One component moves at most, and the others stay as they are. -/
theorem Stepped.node (h : Stepped K n ev n') :
    n'.node = n.node ∨ ∃ i l s, ev = .act i l ∧ (K i).system.step (n.node i) l s ∧
      n'.node = Function.update n.node i s ∧
      ∀ p msg, (K i).reads l = some (p, msg) → msg ∈ n.inbox (i, p) := by
  cases h with
  | connected e e' => exact .inl rfl
  | silent i l s hs hread =>
    refine .inr ⟨i, l, s, rfl, hs, rfl, ?_⟩
    intro p msg h
    rw [hread] at h
    cases h
  | read i l s p msg rest hs hread _ hbox =>
    refine .inr ⟨i, l, s, rfl, hs, rfl, ?_⟩
    intro q msg' h
    obtain ⟨rfl, rfl⟩ := Prod.mk.inj (Option.some.inj (hread.symm.trans h))
    rw [hbox]
    exact List.mem_cons_self ..
  | sent i l s p msg e hs hread =>
    refine .inr ⟨i, l, s, rfl, hs, rfl, ?_⟩
    intro q msg' h
    rw [hread] at h
    cases h

/-- A message in a queue was there before, or was sent just now from the other
    end of its link. -/
theorem Stepped.inbox (h : Stepped K n ev n') {e : ι × Port} {msg : Msg}
    (hmem : msg ∈ n'.inbox e) :
    msg ∈ n.inbox e ∨ ∃ i l s p, (K i).system.step (n.node i) l s ∧
      n'.node = Function.update n.node i s ∧ (K i).sends (n.node i) l = some (p, msg) ∧
      n.link (i, p) = some e := by
  cases h with
  | connected => exact .inl hmem
  | silent => exact .inl hmem
  | read i l s p first rest _ _ _ hbox =>
    by_cases he : e = (i, p)
    · subst he
      rw [queued_inbox_self] at hmem
      rw [hbox]
      exact .inl (List.mem_cons_of_mem _ hmem)
    · rw [queued_inbox_ne _ _ he] at hmem
      exact .inl hmem
  | sent i l s p out e' hs _ hsend hlink =>
    by_cases he : e = e'
    · subst he
      rw [queued_inbox_self] at hmem
      rcases List.mem_append.mp hmem with hold | hnew
      · exact .inl hold
      · rw [List.mem_singleton.mp hnew]
        exact .inr ⟨i, l, s, p, hs, rfl, hsend, hlink⟩
    · rw [queued_inbox_ne _ _ he] at hmem
      exact .inl hmem

/-- What a step reads is the first message before its port. -/
theorem Stepped.acted {i : ι} {l : Label} (h : Stepped K n (.act i l) n') :
    ∃ s, (K i).system.step (n.node i) l s ∧ n'.node = Function.update n.node i s ∧
      n'.link = n.link := by
  cases h with
  | silent _ _ s hs => exact ⟨s, hs, rfl, rfl⟩
  | read _ _ s _ _ _ hs => exact ⟨s, hs, rfl, rfl⟩
  | sent _ _ s _ _ _ hs => exact ⟨s, hs, rfl, rfl⟩

theorem Stepped.reads_first {i : ι} {l : Label} (h : Stepped K n (.act i l) n') {p : Port}
    {msg : Msg} (hread : (K i).reads l = some (p, msg)) : ∃ rest, n.inbox (i, p) = msg :: rest := by
  cases h with
  | silent _ _ s _ hnone =>
    rw [hread] at hnone
    cases hnone
  | read _ _ s q first rest _ hfirst _ hbox =>
    obtain ⟨rfl, rfl⟩ := Prod.mk.inj (Option.some.inj (hfirst.symm.trans hread))
    exact ⟨rest, hbox⟩
  | sent _ _ s q out e _ hnone =>
    rw [hread] at hnone
    cases hnone

/-- A link that is there stays, and a new one has nothing before its ends. -/
theorem Stepped.link (h : Stepped K n ev n') {e e' : ι × Port} (hlink : n'.link e = some e') :
    n.link e = some e' ∨ (n.link e = none ∧ n.link e' = none ∧ n'.link e' = some e ∧ e ≠ e' ∧
      n'.inbox = n.inbox ∧ n'.node = n.node) := by
  cases h with
  | connected a b hne ha hb =>
    have hback : (n.linked a b).link a = some b :=
      (Function.update_of_ne hne ..).trans (Function.update_self ..)
    rcases linked_link hlink with hold | ⟨rfl, rfl⟩ | ⟨rfl, rfl⟩
    · exact .inl hold
    · exact .inr ⟨ha, hb, Function.update_self .., hne, rfl, rfl⟩
    · exact .inr ⟨hb, ha, hback, hne.symm, rfl, rfl⟩
  | silent => exact .inl hlink
  | read => exact .inl hlink
  | sent => exact .inl hlink

theorem Stepped.link_stays (h : Stepped K n ev n') {e e' : ι × Port}
    (hlink : n.link e = some e') : n'.link e = some e' := by
  cases h with
  | connected a b _ ha hb =>
    have hea : e ≠ a := by
      rintro rfl
      rw [ha] at hlink
      cases hlink
    have heb : e ≠ b := by
      rintro rfl
      rw [hb] at hlink
      cases hlink
    exact (Function.update_of_ne heb ..).trans ((Function.update_of_ne hea ..).trans hlink)
  | silent => exact hlink
  | read => exact hlink
  | sent => exact hlink

theorem Stepped.not_linked (h : Stepped K n ev n') {e : ι × Port} (hlink : n'.link e = none) :
    n.link e = none := by
  cases hwas : n.link e with
  | none => rfl
  | some e' =>
    rw [h.link_stays hwas] at hlink
    cases hlink

/-! ### Computing the Steps -/

variable [DecidableEq Msg]

/-- The first message in the queue is taken off it. -/
def take (n : Network ι State Port Msg) (e : ι × Port) (msg : Msg) :
    Option (Network ι State Port Msg) :=
  match n.inbox e with
  | [] => none
  | first :: rest => if first = msg then some (n.queued e rest) else none

/-- What a step reads and sends, once the component has moved. -/
def exchange (n : Network ι State Port Msg) (i : ι) :
    Option (Port × Msg) → Option (Port × Msg) → Option (Network ι State Port Msg)
  | none, none => some n
  | some (p, msg), none => n.take (i, p) msg
  | none, some (p, msg) => n.post (i, p) msg
  | some _, some _ => none

/-- The state after a step. -/
def next (K : ι → Component State Port Msg Label) (n : Network ι State Port Msg) :
    NetEvent ι Port Label → Option (Network ι State Port Msg)
  | .connect e e' =>
    if e ≠ e' ∧ (n.link e).isNone ∧ (n.link e').isNone then some (n.linked e e') else none
  | .act i l => ((K i).next (n.node i) l).bind fun s =>
    (n.moved i s).exchange i ((K i).reads l) ((K i).sends (n.node i) l)

/-- The runs of a network. -/
def system (K : ι → Component State Port Msg Label) :
    System (Network ι State Port Msg) (NetEvent ι Port Label) where
  init := fun n => n = start K
  step := fun n ev n' => n.next K ev = some n'

/-- **Step inversion**. -/
theorem next_stepped (h : n.next K ev = some n') : Stepped K n ev n' := by
  cases ev with
  | connect e e' =>
    change (if e ≠ e' ∧ (n.link e).isNone ∧ (n.link e').isNone then some (n.linked e e')
      else none) = some n' at h
    by_cases hfree : e ≠ e' ∧ (n.link e).isNone ∧ (n.link e').isNone
    · rw [if_pos hfree] at h
      obtain rfl := Option.some.inj h
      exact .connected e e' hfree.1 (Option.isNone_iff_eq_none.mp hfree.2.1)
        (Option.isNone_iff_eq_none.mp hfree.2.2)
    · rw [if_neg hfree] at h
      cases h
  | act i l =>
    obtain ⟨s, hs, hex⟩ := Option.bind_eq_some_iff.mp h
    cases hread : (K i).reads l with
    | none =>
      cases hsend : (K i).sends (n.node i) l with
      | none =>
        rw [hread, hsend] at hex
        obtain rfl := Option.some.inj hex
        exact .silent i l s hs hread hsend
      | some out =>
        obtain ⟨p, msg⟩ := out
        rw [hread, hsend] at hex
        obtain ⟨e, he, rfl⟩ := Option.map_eq_some_iff.mp hex
        exact .sent i l s p msg e hs hread hsend he
    | some got =>
      obtain ⟨p, msg⟩ := got
      cases hsend : (K i).sends (n.node i) l with
      | some out =>
        rw [hread, hsend] at hex
        cases hex
      | none =>
        rw [hread, hsend] at hex
        change (n.moved i s).take (i, p) msg = some n' at hex
        unfold take at hex
        split at hex
        · cases hex
        · rename_i first rest hbox
          split at hex
          · rename_i hfirst
            subst hfirst
            obtain rfl := Option.some.inj hex
            exact .read i l s p first rest hs hread hsend hbox
          · cases hex

/-- A computed step is a step. -/
theorem next_step (n : Network ι State Port Msg) (ev : NetEvent ι Port Label)
    (n' : Network ι State Port Msg) (h : n.next K ev = some n') : (system K).step n ev n' := h

/-! ## Wiring -/

/-- Links go both ways, between two ports, and nothing waits before a port
    that is not linked. -/
structure Wired (n : Network ι State Port Msg) : Prop where
  symm : ∀ e e', n.link e = some e' → n.link e' = some e
  apart : ∀ e e', n.link e = some e' → e ≠ e'
  empty : ∀ e, n.link e = none → n.inbox e = []

omit [DecidableEq Msg] in
theorem Wired.stepped (hn : n.Wired) (h : Stepped K n ev n') : n'.Wired where
  symm := by
    intro e e' hlink
    rcases h.link hlink with hold | ⟨-, -, hback, -⟩
    · exact h.link_stays (hn.symm e e' hold)
    · exact hback
  apart := by
    intro e e' hlink
    rcases h.link hlink with hold | ⟨-, -, -, hne, -⟩
    · exact hn.apart e e' hold
    · exact hne
  empty := by
    intro e hlink
    have hnone := h.not_linked hlink
    refine List.eq_nil_iff_forall_not_mem.mpr fun msg hmem => ?_
    rcases h.inbox hmem with hwas | ⟨i, l, s, p, -, -, -, hto⟩
    · rw [hn.empty e hnone] at hwas
      cases hwas
    · rw [hn.symm _ _ hto] at hnone
      cases hnone

/-- **Wiring**: in every reachable state of a network. -/
theorem wired (h : (system K).Reachable n) : n.Wired := by
  refine System.invariant (I := Wired) ?_ ?_ n h
  · intro n hn
    obtain rfl : n = start K := hn
    refine ⟨?_, ?_, fun e _ => rfl⟩
    · intro e e' hlink
      cases hlink
    · intro e e' hlink
      cases hlink
  · intro n ev n' _ hn hst
    exact hn.stepped (next_stepped hst)

/-! ## Contracts -/

/-- A contract: what each component keeps while it reads good messages, and
    that it sends only good ones. -/
structure Contract (K : ι → Component State Port Msg Label) where
  holds : ι → State → Prop
  good : Msg → Prop
  init : ∀ i, holds i (K i).start
  kept : ∀ i s l s', (K i).system.Reachable s → holds i s → (K i).system.step s l s' →
    (∀ p msg, (K i).reads l = some (p, msg) → good msg) → holds i s'
  sent : ∀ i s l s' p msg, (K i).system.Reachable s → holds i s → (K i).system.step s l s' →
    (K i).sends s l = some (p, msg) → good msg

/-- The component keeps its part, and what it reads is good. -/
def Contract.Fed (C : Contract K) (i : ι) (s : State) (l : Label) : Prop :=
  C.holds i s ∧ ∀ p msg, (K i).reads l = some (p, msg) → C.good msg

/-- What a contract gives for the whole network. -/
structure Contract.Met (C : Contract K) (n : Network ι State Port Msg) : Prop where
  alone : ∀ i, ((K i).system.restrict (C.Fed i)).Reachable (n.node i)
  holds : ∀ i, C.holds i (n.node i)
  good : ∀ e, ∀ msg ∈ n.inbox e, C.good msg

omit [DecidableEq Msg] in
theorem Contract.Met.stepped {C : Contract K} (hn : C.Met n) (h : Stepped K n ev n') :
    C.Met n' := by
  have hgood : ∀ e, ∀ msg ∈ n'.inbox e, C.good msg := by
    intro e msg hmem
    rcases h.inbox hmem with hold | ⟨i, l, s, p, hs, -, hsend, -⟩
    · exact hn.good e msg hold
    · exact C.sent i _ l s p msg (hn.alone i).of_restrict (hn.holds i) hs hsend
  rcases h.node with hnode | ⟨i, l, s, -, hs, hnode, hread⟩
  · refine ⟨?_, ?_, hgood⟩
    · rw [hnode]
      exact hn.alone
    · rw [hnode]
      exact hn.holds
  -- the component that moved read a message that was in a queue, so a good one
  · have hfed : C.Fed i (n.node i) l :=
      ⟨hn.holds i, fun p msg hp => hn.good (i, p) msg (hread p msg hp)⟩
    refine ⟨?_, ?_, hgood⟩
    · intro j
      rw [hnode]
      by_cases hj : j = i
      · subst hj
        rw [Function.update_self]
        exact .step (hn.alone j) ⟨hfed, hs⟩
      · rw [Function.update_of_ne hj]
        exact hn.alone j
    · intro j
      rw [hnode]
      by_cases hj : j = i
      · subst hj
        rw [Function.update_self]
        exact C.kept j _ l s (hn.alone j).of_restrict (hn.holds j) hs hfed.2
      · rw [Function.update_of_ne hj]
        exact hn.holds j

/-- **Contract rule**: in every reachable state of the network the contract
    is met. -/
theorem Contract.sound (C : Contract K) (h : (system K).Reachable n) : C.Met n := by
  refine System.invariant ?_ ?_ n h
  · intro n hn
    obtain rfl : n = start K := hn
    refine ⟨fun i => .init rfl, C.init, ?_⟩
    intro e msg hmem
    cases hmem
  · intro n ev n' _ hn hst
    exact hn.stepped (next_stepped hst)

/-! ## Knowledge -/

/-- Facts about components that only come true, the messages that tell them to
    a component at the other end of a link, and what a component believes. -/
structure Knowledge (C : Contract K) (Fact : Type*) where
  holds : State → Fact → Prop
  tells : Msg → Fact → Prop
  believes : State → Port → Fact → Prop
  unbiased : ∀ i p f, ¬ believes (K i).start p f
  stays : ∀ i s l s' f, (K i).system.Reachable s → C.Fed i s l → (K i).system.step s l s' →
    holds s f → holds s' f
  honest : ∀ i s l s' p msg f, (K i).system.Reachable s → C.holds i s →
    (K i).system.step s l s' → (K i).sends s l = some (p, msg) → tells msg f → holds s f
  learnt : ∀ i s l s' p f, (K i).system.Reachable s → (K i).system.step s l s' →
    believes s' p f → believes s p f ∨ ∃ msg, (K i).reads l = some (p, msg) ∧ tells msg f

/-- What is told and believed across the links of a network is true, and nothing
    is believed without a link. -/
structure Knowledge.Sound {C : Contract K} {Fact : Type*} (L : Knowledge C Fact)
    (n : Network ι State Port Msg) : Prop where
  told : ∀ e j q, n.link e = some (j, q) → ∀ msg ∈ n.inbox e, ∀ f, L.tells msg f →
    L.holds (n.node j) f
  believed : ∀ i p j q, n.link (i, p) = some (j, q) → ∀ f, L.believes (n.node i) p f →
    L.holds (n.node j) f
  unlinked : ∀ i p, n.link (i, p) = none → ∀ f, ¬ L.believes (n.node i) p f

section knowledge

variable {C : Contract K} {Fact : Type*} {L : Knowledge C Fact}

omit [DecidableEq Msg] in
/-- What holds at a component goes on holding, whoever moves. -/
theorem Knowledge.stays_stepped (hn : C.Met n) (h : Stepped K n ev n') (j : ι) (f : Fact)
    (hf : L.holds (n.node j) f) : L.holds (n'.node j) f := by
  rcases h.node with hnode | ⟨i, l, s, -, hs, hnode, hread⟩
  · rw [hnode]
    exact hf
  · rw [hnode]
    by_cases hj : j = i
    · subst hj
      rw [Function.update_self]
      refine L.stays j _ l s f (hn.alone j).of_restrict ⟨hn.holds j, ?_⟩ hs hf
      intro p msg hp
      exact hn.good (j, p) msg (hread p msg hp)
    · rw [Function.update_of_ne hj]
      exact hf

omit [DecidableEq Msg] in
/-- A new belief comes from a message in the queue. -/
theorem Knowledge.learnt_stepped (hn : C.Met n) (h : Stepped K n ev n') {i : ι} {p : Port}
    {f : Fact} (hf : L.believes (n'.node i) p f) :
    L.believes (n.node i) p f ∨ ∃ msg ∈ n.inbox (i, p), L.tells msg f := by
  rcases h.node with hnode | ⟨j, l, s, -, hs, hnode, hread⟩
  · rw [hnode] at hf
    exact .inl hf
  · rw [hnode] at hf
    by_cases hi : i = j
    · subst hi
      rw [Function.update_self] at hf
      rcases L.learnt i _ l s p f (hn.alone i).of_restrict hs hf with hold | ⟨msg, hp, htells⟩
      · exact .inl hold
      · exact .inr ⟨msg, hread p msg hp, htells⟩
    · rw [Function.update_of_ne hi] at hf
      exact .inl hf

omit [DecidableEq Msg] in
/-- **Step lemma** for knowledge. -/
theorem Knowledge.Sound.stepped (hn : C.Met n) (hw : n.Wired) (hs : L.Sound n)
    (h : Stepped K n ev n') : L.Sound n' where
  told := by
    intro e j q hlink msg hmem f hf
    rcases h.link hlink with hold | ⟨hnone, -, -, -, hbox, -⟩
    · apply L.stays_stepped hn h
      rcases h.inbox hmem with hwas | ⟨i, l, s, p, hstep, -, hsend, hto⟩
      · exact hs.told e j q hold msg hwas f hf
      -- sent just now, so by the component at the other end
      · obtain ⟨rfl, rfl⟩ := Prod.mk.inj (Option.some.inj ((hw.symm _ _ hto).symm.trans hold))
        exact L.honest i _ l s p msg f (hn.alone i).of_restrict (hn.holds i) hstep hsend hf
    -- nothing waits before a port that has just been linked
    · rw [hbox, hw.empty e hnone] at hmem
      cases hmem
  believed := by
    intro i p j q hlink f hf
    rcases h.link hlink with hold | ⟨hnone, -, -, -, -, hnode⟩
    · apply L.stays_stepped hn h
      rcases L.learnt_stepped hn h hf with hwas | ⟨msg, hmem, htells⟩
      · exact hs.believed i p j q hold f hwas
      · exact hs.told (i, p) j q hold msg hmem f htells
    · rw [hnode] at hf
      exact absurd hf (hs.unlinked i p hnone f)
  unlinked := by
    intro i p hlink f hf
    have hnone := h.not_linked hlink
    rcases L.learnt_stepped hn h hf with hwas | ⟨msg, hmem, -⟩
    · exact hs.unlinked i p hnone f hwas
    · rw [hw.empty (i, p) hnone] at hmem
      cases hmem

/-- **Knowledge rule**: in every reachable state of the network, what is on its
    way and what is believed across a link is true. -/
theorem Knowledge.sound (L : Knowledge C Fact) (h : (system K).Reachable n) : L.Sound n := by
  refine System.invariant (I := L.Sound) ?_ ?_ n h
  · intro n hn
    obtain rfl : n = start K := hn
    refine ⟨?_, ?_, ?_⟩
    · intro e j q hlink
      cases hlink
    · intro i p j q hlink
      cases hlink
    · intro i p _ f
      exact L.unbiased i p f
  · intro n ev n' hr hn hst
    exact hn.stepped (C.sound hr) (wired hr) (next_stepped hst)

end knowledge

end steps

end Network

end LTS
