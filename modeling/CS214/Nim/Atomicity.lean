import CS214.Nim.Lock
import CS214.Nim.Starts

/-!
# Nim — a critical section is one step

What a thread does while it holds the lock is seen by the others when it is done, so that the
statements of `Lock` show as the steps of `Server`.

`Mirrors f s b`: the process is in a state of `Server` but for what the thread inside has done so
far, and the thread is done after at most `b` statements.  A step outside is a step of `Server` that
the thread inside does not notice (`Mirrors.outside`); its own statements show as nothing, or as the
whole critical section (`Mirrors.inside`), in the statement after which another thread could tell.

* `lock_refines`: every run is a run of `Server`.
* `lock_released`: the thread that holds the lock is not stuck, and releases it.
-/

namespace CS214.Nim

open CString NodeList Function

/-! ### What the process shows -/

/-- The names in the list, when these nodes are allocated besides. -/
def Keeps (f : Locked) (L : List Name) (extra : List NodeAddr) : Prop :=
  ∃ cells, NodeList.Holds f.list cells extra ∧ items cells = L

/-- The state with these names and this slot. -/
def Server.share (s : Server) (L : List Name) (W : Option Addr) : Server :=
  { s with names := L, waiting := W }

/-- The process is in this state of `Server`: they agree in what no lock protects, and when the lock
is free, in everything. -/
structure Agrees (f : Locked) (s : Server) : Prop where
  rest : s = f.server.share s.names s.waiting
  free : f.holder = none → f.server.waiting = s.waiting ∧ Keeps f s.names []

/-- A call of `remove_name(p->name)`: `R` are the names in the list before the call, `L` and `W` the
names and the slot before the critical section. -/
def Caller.Calls (f : Locked) (L : List Name) (W : Option Addr) (p : Addr) (R : List Name) :
    Caller → Prop
  | .withdraw c ret => f.server.handlers c = .waiting p ∧ W = some p ∧ 0 < ret ∧
      f.server.waiting = none ∧ R = L
  | .first g p₂ => ∃ t, f.server.games g = .running p p₂ [] t ∧ t.ended = true ∧
      f.server.waiting = W ∧ R = L
  | .second g p₁ => ∃ t, f.server.games g = .running p₁ p [] t ∧ t.ended = true ∧
      f.server.waiting = W ∧ R = L.erase (f.server.players p₁).name

/-- The most statements that come after the call. -/
def Caller.after (L : List Name) : Caller → ℕ
  | .withdraw _ _ | .second _ _ => 1
  | .first _ _ => L.length + 2

/-- What holds where the thread inside is; it leaves after at most `b` statements. -/
inductive Stands (f : Locked) (L : List Name) (W : Option Addr) : Option Inside → ℕ → Prop where
  | free {b : ℕ} (slot : f.server.waiting = W) (list : Keeps f L []) : Stands f L W none b
  | find {c : Cid} {name : Name} {b : ℕ} (pc : f.server.handlers c = .opened name)
      (slot : f.server.waiting = W) (list : Keeps f L []) (hb : L.length + 7 ≤ b) :
      Stands f L W (some (.find c name)) b
  | look {c : Cid} {name : Name} {xs ys : List (NodeAddr × Name)} {b : ℕ}
      (pc : f.server.handlers c = .opened name) (slot : f.server.waiting = W)
      (list : NodeList.Holds f.list (xs ++ ys) []) (names : items (xs ++ ys) = L)
      (new : name ∉ items xs)
      (hb : ys.length + 6 ≤ b) : Stands f L W (some (.look c name (lead ys none))) b
  | make {c : Cid} {name : Name} {b : ℕ} (pc : f.server.handlers c = .opened name)
      (slot : f.server.waiting = W) (list : Keeps f L []) (new : name ∉ L) (hb : 5 ≤ b) :
      Stands f L W (some (.make c name)) b
  | fill {c : Cid} {name : Name} {n : NodeAddr} {b : ℕ} (pc : f.server.handlers c = .opened name)
      (slot : f.server.waiting = W) (list : Keeps f L [n]) (new : name ∉ L) (hb : 4 ≤ b) :
      Stands f L W (some (.fill c name n)) b
  | chain {c : Cid} {n : NodeAddr} {x : NameNode} {b : ℕ}
      (pc : f.server.handlers c = .opened x.item) (slot : f.server.waiting = W)
      (list : Keeps f L [n]) (new : x.item ∉ L) (node : f.list.node n = some x) (hb : 3 ≤ b) :
      Stands f L W (some (.chain c x.item n)) b
  | link {c : Cid} {name : Name} {n : NodeAddr} {b : ℕ} (pc : f.server.handlers c = .opened name)
      (slot : f.server.waiting = W) (list : Keeps f L [n]) (new : name ∉ L)
      (node : f.list.node n = some ⟨name, f.list.first⟩) (hb : 2 ≤ b) :
      Stands f L W (some (.link c name n)) b
  | meet {c : Cid} {me : Addr} {b : ℕ} (pc : f.server.handlers c = .matching me)
      (slot : f.server.waiting = W) (list : Keeps f L []) (hb : 5 ≤ b) :
      Stands f L W (some (.meet c me)) b
  | occupy {c : Cid} {me : Addr} {b : ℕ} (pc : f.server.handlers c = .matching me)
      (list : Keeps f L []) (empty : W = none) (hb : 3 ≤ b) :
      Stands f L W (some (.occupy c me)) b
  | hold {c : Cid} {me : Addr} {b : ℕ} (slot : f.server.waiting = W) (list : Keeps f L [])
      (here : W = some me) (hb : 2 ≤ b) : Stands f L W (some (.hold c me)) b
  | claim {c : Cid} {me : Addr} {b : ℕ} (pc : f.server.handlers c = .matching me)
      (slot : f.server.waiting = W) (list : Keeps f L []) (waits : W ≠ none) (hb : 4 ≤ b) :
      Stands f L W (some (.claim c me)) b
  | clear {c : Cid} {me o : Addr} {b : ℕ} (pc : f.server.handlers c = .matching me)
      (list : Keeps f L []) (waits : W = some o) (hb : 3 ≤ b) :
      Stands f L W (some (.clear c me o)) b
  | start {c : Cid} {me o : Addr} {b : ℕ} (pc : f.server.handlers c = .matching me)
      (slot : f.server.waiting = none) (list : Keeps f L []) (waits : W = some o) (hb : 2 ≤ b) :
      Stands f L W (some (.start c me o)) b
  | recheck {c : Cid} {me : Addr} {ret : ℤ} {b : ℕ} (pc : f.server.handlers c = .waiting me)
      (slot : f.server.waiting = W) (list : Keeps f L []) (hb : L.length + 4 ≤ b) :
      Stands f L W (some (.recheck c me ret)) b
  | vacate {c : Cid} {me : Addr} {ret : ℤ} {b : ℕ} (pc : f.server.handlers c = .waiting me)
      (list : Keeps f L []) (here : W = some me) (ready : 0 < ret) (hb : L.length + 3 ≤ b) :
      Stands f L W (some (.vacate c me ret)) b
  | scan {p : Addr} {K : Caller} {xs ys : List (NodeAddr × Name)} {b : ℕ}
      (call : K.Calls f L W p (items (xs ++ ys))) (list : NodeList.Holds f.list (xs ++ ys) [])
      (old : (f.server.players p).name ∉ items xs) (hb : ys.length + 1 + K.after L ≤ b) :
      Stands f L W (some (.scan p (cell xs) K)) b
  | drop {p : Addr} {R : List Name} {K : Caller} {n : NodeAddr} {b : ℕ} (call : K.Calls f L W p R)
      (list : Keeps f (R.erase (f.server.players p).name) [n]) (hb : 1 + K.after L ≤ b) :
      Stands f L W (some (.drop p n K)) b
  | unlock {T : Task} {b : ℕ} (slot : f.server.waiting = W) (list : Keeps f L []) (hb : 1 ≤ b) :
      Stands f L W (some (.unlock T)) b

/-- The process shows as a state of `Server`, and the thread inside leaves soon. -/
structure Mirrors (f : Locked) (s : Server) (b : ℕ) : Prop where
  rest : s = f.server.share s.names s.waiting
  within : Stands f s.names s.waiting f.holder b

variable {f f' : Locked} {s s' v v' : Server} {c d : Cid} {g : Gid} {p p₁ p₂ me o : Addr}
  {e : Event} {L R : List Name} {W : Option Addr} {name : Name} {k : Inside} {K : Caller}
  {T : Task} {K₀ : Option Inside} {b : ℕ}

theorem Mirrors.agrees (h : Mirrors f s b) : Agrees f s := by
  refine ⟨h.rest, fun hfree => ?_⟩
  have hw := h.within
  rw [hfree] at hw
  cases hw with
  | free slot list => exact ⟨slot, list⟩

/-- Every case of a step is one. -/
theorem Step.eq (h : Step s e s') : step s e = some s' := by
  cases h with
  | accept closed => exact if_pos closed
  | spawn pc | receive pc | greet pc | reply pc | act pc | release pc => simp only [step, pc]
  | refuse pc taken => simp only [step, pc, registerName, if_pos taken]
  | register pc unused => simp only [step, pc, registerName, if_neg unused]
  | alloc pc unused => simp only [step, pc, unused, Bool.false_eq_true, if_false]
  | take pc empty => simp only [step, pc, empty]
  | pair pc waits start => simp only [step, pc, waits, start]
  | matched pc away => simp only [step, pc, if_pos away]
  | withdraw pc here ready =>
      simp only [step, pc, here, ne_eq, not_true_eq_false, if_false, if_pos ready]
  | again pc here idle =>
      simp only [step, pc, here, ne_eq, not_true_eq_false, if_false, if_neg idle]
  | @effect g p₁ p₂ p b todo t pc seat =>
      rw [pc] at seat
      cases hwho : b.who <;> rw [hwho] at seat <;> obtain rfl := Option.some.inj seat <;>
        simp only [step, pc, hwho]
  | poll pc going => simp only [step, pc, going, Bool.false_eq_true, if_false]
  | unregister pc ended => simp only [step, pc, ended, if_true]

/-! ### The steps of the other threads -/

theorem share_send (k : Option Cid) (fd : Fd) (text : Bytes) :
    (v.share L W).send k fd text = (v.send k fd text).share L W := by
  unfold Server.send
  split <;> rfl

theorem share_act (c : Cid) (b : Act) : (v.share L W).act c b = (v.act c b).share L W := by
  cases b with
  | send text => exact share_send _ _ _
  | close | free => rfl

theorem share_effect (p : Addr) (b : Effect) :
    (v.share L W).effect p b = (v.effect p b).share L W := by
  cases b with
  | send q text => exact share_send _ _ _
  | close => rfl

/-- A step outside does not see the names and the slot. -/
theorem Step.share (h : Step v e v') (he : e.outside = true) :
    Step (v.share L W) e (v'.share L W) := by
  cases h with
  | refuse | register | take | pair | matched | withdraw | again | unregister => cases he
  | accept closed => exact .accept closed
  | spawn pc => exact .spawn pc
  | receive pc => exact .receive pc
  | alloc pc unused => exact .alloc pc unused
  | @greet c me pc =>
      have h : Step (v.share L W) (.greet c) _ := .greet pc
      rwa [share_send] at h
  | reply pc => exact .reply pc
  | @act c b todo pc =>
      have h : Step (v.share L W) (.act c) _ := .act pc
      rwa [share_act] at h
  | @effect g p₁ p₂ p b todo t pc seat =>
      have h : Step (v.share L W) (.effect g) _ := .effect pc seat
      rwa [share_effect] at h
  | poll pc going => exact .poll pc going
  | release pc => exact .release pc

/-- The handler needs the lock next. -/
def Handler.locks : Handler → Bool
  | .opened _ | .matching _ | .waiting _ => true
  | _ => false

/-- What a step of a thread `T` outside leaves as it was: what the lock protects, and what the other
threads need inside. -/
structure Spares (v v' : Server) (T : Task) : Prop where
  waiting : v'.waiting = v.waiting
  handlers : ∀ c, T ≠ .client c → (v.handlers c).locks = true → v'.handlers c = v.handlers c
  games : ∀ g, T ≠ .game g → v'.games g = v.games g
  players : ∀ a, v.allocated a = true → v'.players a = v.players a

theorem handlers_update {H : Handler} (hc : Task.client c ≠ .client d) :
    update v.handlers c H d = v.handlers d :=
  update_of_ne (fun e => hc (congrArg _ e.symm)) _ _

theorem games_update {G : Game} {h : Gid} (hg : Task.game g ≠ .game h) :
    update v.games g G h = v.games h :=
  update_of_ne (fun e => hg (congrArg _ e.symm)) _ _

theorem Step.spares (h : Step v e v') (he : e.outside = true)
    (hconns : v.handlers v.conns = .absent) : Spares v v' e.task := by
  cases h with
  | refuse | register | take | pair | matched | withdraw | again | unregister => cases he
  | accept closed =>
      refine ⟨rfl, fun d _ hd => update_of_ne ?_ _ _, fun _ _ => rfl, fun _ _ => rfl⟩
      rintro rfl
      rw [hconns] at hd
      cases hd
  | @spawn c ok pc =>
      refine ⟨rfl, fun d _ hd => update_of_ne ?_ _ _, fun _ _ => rfl, fun _ _ => rfl⟩
      rintro rfl
      rw [pc] at hd
      cases hd
  | receive | reply =>
      exact ⟨rfl, fun _ hd _ => handlers_update hd, fun _ _ => rfl, fun _ _ => rfl⟩
  | @alloc c a name pc unused =>
      refine ⟨rfl, fun _ hd _ => handlers_update hd, fun _ _ => rfl,
        fun b hb => update_of_ne ?_ _ _⟩
      rintro rfl
      rw [unused] at hb
      cases hb
  | @greet c me pc =>
      obtain ⟨ops, hs⟩ := send_shape v (some c) (v.fd c) (ascii "WAIT")
      rw [hs]
      exact ⟨rfl, fun _ hd _ => handlers_update hd, fun _ _ => rfl, fun _ _ => rfl⟩
  | @act c b todo pc =>
      obtain ⟨ops, fds, alloc, hs, -⟩ := act_shape v c b
      rw [hs]
      exact ⟨rfl, fun _ hd _ => handlers_update hd, fun _ _ => rfl, fun _ _ => rfl⟩
  | @effect g p₁ p₂ p b todo t pc seat =>
      obtain ⟨ops, fds, hs⟩ := effect_shape v p b
      rw [hs]
      exact ⟨rfl, fun _ _ _ => rfl, fun _ hd => games_update hd, fun _ _ => rfl⟩
  | poll | release => exact ⟨rfl, fun _ _ _ => rfl, fun _ hd => games_update hd, fun _ _ => rfl⟩

/-! ### What holds inside while other threads take steps -/

/-- The objects whose names are removed are in use. -/
theorem Caller.Calls.inUse (h : K.Calls f L W p R) (hs : s = f.server.share L W) :
    (∃ u, InUse s p u) ∧ ∀ g p₁, K = .second g p₁ → ∃ u, InUse s p₁ u := by
  subst hs
  cases K with
  | withdraw c ret =>
      obtain ⟨-, hslot, -⟩ := h
      exact ⟨⟨.slot, hslot⟩, fun g p₁ e => by cases e⟩
  | first g p₂ =>
      obtain ⟨t, hg, -⟩ := h
      exact ⟨⟨.seat g .one, congrArg (Game.seat · .one) hg⟩, fun g p₁ e => by cases e⟩
  | second g p₁ =>
      obtain ⟨t, hg, -⟩ := h
      refine ⟨⟨.seat g .two, congrArg (Game.seat · .two) hg⟩, fun h q e => ?_⟩
      cases e
      exact ⟨.seat g .one, congrArg (Game.seat · .one) hg⟩

theorem Caller.Calls.of_spares (h : K.Calls f L W p R) (hO : Objects (f.server.share L W))
    (hv : Spares f.server v T) (hT : T ≠ K.task) :
    K.Calls { f with server := v } L W p R := by
  obtain ⟨-, hp₁⟩ := h.inUse rfl
  cases K with
  | withdraw c ret =>
      obtain ⟨pc, slot, ready, empty, names⟩ := h
      have hpc : (f.server.handlers c).locks = true := by
        rw [pc]
        rfl
      exact ⟨(hv.handlers c hT hpc).trans pc, slot, ready, hv.waiting.trans empty, names⟩
  | first g p₂ =>
      obtain ⟨t, pc, ended, slot, names⟩ := h
      exact ⟨t, (hv.games g hT).trans pc, ended, hv.waiting.trans slot, names⟩
  | second g p₁ =>
      obtain ⟨t, pc, ended, slot, names⟩ := h
      obtain ⟨u, hu⟩ := hp₁ g p₁ rfl
      refine ⟨t, (hv.games g hT).trans pc, ended, hv.waiting.trans slot, ?_⟩
      rw [hv.players p₁ (hO.allocated p₁ u hu)]
      exact names

theorem Stands.of_spares (h : Stands f L W K₀ b) (hO : Objects (f.server.share L W))
    (hv : Spares f.server v T) (hT : ∀ k, K₀ = some k → T ≠ k.task) :
    Stands { f with server := v } L W K₀ b := by
  have slot' : f.server.waiting = W → v.waiting = W := hv.waiting.trans
  have pc' : ∀ c, T ≠ .client c → ∀ {H : Handler}, H.locks = true → f.server.handlers c = H →
      v.handlers c = H := by
    rintro c hc H hH rfl
    exact hv.handlers c hc hH
  cases h with
  | free slot list => exact .free (slot' slot) list
  | find pc slot list hb => exact .find (pc' _ (hT _ rfl) rfl pc) (slot' slot) list hb
  | look pc slot list names new hb =>
      exact .look (pc' _ (hT _ rfl) rfl pc) (slot' slot) list names new hb
  | make pc slot list new hb => exact .make (pc' _ (hT _ rfl) rfl pc) (slot' slot) list new hb
  | fill pc slot list new hb => exact .fill (pc' _ (hT _ rfl) rfl pc) (slot' slot) list new hb
  | chain pc slot list new node hb =>
      exact .chain (pc' _ (hT _ rfl) rfl pc) (slot' slot) list new node hb
  | link pc slot list new node hb =>
      exact .link (pc' _ (hT _ rfl) rfl pc) (slot' slot) list new node hb
  | meet pc slot list hb => exact .meet (pc' _ (hT _ rfl) rfl pc) (slot' slot) list hb
  | occupy pc list empty hb => exact .occupy (pc' _ (hT _ rfl) rfl pc) list empty hb
  | hold slot list here hb => exact .hold (slot' slot) list here hb
  | claim pc slot list waits hb =>
      exact .claim (pc' _ (hT _ rfl) rfl pc) (slot' slot) list waits hb
  | clear pc list waits hb => exact .clear (pc' _ (hT _ rfl) rfl pc) list waits hb
  | start pc slot list waits hb =>
      exact .start (pc' _ (hT _ rfl) rfl pc) (hv.waiting.trans slot) list waits hb
  | recheck pc slot list hb => exact .recheck (pc' _ (hT _ rfl) rfl pc) (slot' slot) list hb
  | vacate pc list here ready hb =>
      exact .vacate (pc' _ (hT _ rfl) rfl pc) list here ready hb
  | scan call list old hb =>
      obtain ⟨u, hu⟩ := (call.inUse rfl).1
      have hname := hv.players _ (hO.allocated _ u hu)
      exact .scan (call.of_spares hO hv (hT _ rfl)) list (hname ▸ old) hb
  | drop call list hb =>
      obtain ⟨u, hu⟩ := (call.inUse rfl).1
      have hname := hv.players _ (hO.allocated _ u hu)
      exact .drop (call.of_spares hO hv (hT _ rfl)) (hname ▸ list) hb
  | unlock slot list hb => exact .unlock (slot' slot) list hb

/-- A step outside is one of `Server`, and the thread inside does not notice. -/
theorem Mirrors.outside (h : Mirrors f s b) (hs : Orderly s) (he : e.outside = true)
    (hT : f.holder.map Inside.task ≠ some e.task) (hv : step f.server e = some v) :
    ∃ s', step s e = some s' ∧ Mirrors { f with server := v } s' b := by
  have hstep := step_cases hv
  have hO := hs.objects
  rw [h.rest] at hO
  have hconns : f.server.handlers f.server.conns = .absent := by
    have hc := hs.points.conns s.conns (Nat.le_refl _)
    rw [h.rest] at hc
    exact hc
  refine ⟨v.share s.names s.waiting, ?_, rfl, ?_⟩
  · have hshare : step (f.server.share s.names s.waiting) e = _ := (hstep.share he).eq
    rwa [← h.rest] at hshare
  · refine h.within.of_spares hO (hstep.spares he hconns) fun k hk e' => hT ?_
    rw [hk, e']
    rfl

/-! ### The thread inside -/

theorem length_of_items {cells : List (NodeAddr × Name)} (h : items cells = L) :
    cells.length = L.length := by
  rw [← h, List.length_map]

/-- The loop of `register_name` before its first round. -/
theorem Stands.look_first (pc : f.server.handlers c = .opened name) (slot : f.server.waiting = W)
    (list : Keeps f L []) (hb : L.length + 6 ≤ b) :
    Stands f L W (some (.look c name f.list.first)) b := by
  obtain ⟨cells, hcells, hnames⟩ := list
  rw [← length_of_items hnames] at hb
  rw [hcells.first]
  exact @Stands.look _ _ _ _ _ [] cells _ pc slot hcells hnames List.not_mem_nil hb

/-- The loop of `remove_name` before its first round. -/
theorem Stands.scan_first (call : K.Calls f L W p R) (list : Keeps f R [])
    (hb : R.length + 1 + K.after L ≤ b) : Stands f L W (some (.scan p none K)) b := by
  obtain ⟨cells, hcells, rfl⟩ := list
  rw [← length_of_items rfl] at hb
  exact @Stands.scan _ _ _ _ _ [] cells _ call hcells List.not_mem_nil hb

/-- A thread that gets the lock. -/
theorem Mirrors.lock {ret : ℤ} (h : Mirrors f s b) (hfree : f.holder = none)
    (hk : f.server.lock ret T = some k) :
    Mirrors { f with holder := some k } s (2 * s.names.length + 7) := by
  refine ⟨h.rest, ?_⟩
  have hw := h.within
  rw [hfree] at hw
  obtain ⟨slot, list⟩ : f.server.waiting = s.waiting ∧ Keeps f s.names [] := by
    cases hw with
    | free slot list => exact ⟨slot, list⟩
  cases T with
  | main => cases hk
  | client c =>
      simp only [Server.lock] at hk
      split at hk
      · next name pc =>
          obtain rfl := Option.some.inj hk
          exact .find pc slot list (by omega)
      · next me pc =>
          obtain rfl := Option.some.inj hk
          exact .meet pc slot list (by omega)
      · next me pc =>
          obtain rfl := Option.some.inj hk
          exact .recheck pc slot list (by omega)
      · cases hk
  | game g =>
      simp only [Server.lock] at hk
      split at hk
      · next p₁ p₂ t pc =>
          split at hk
          · next ended =>
              obtain rfl := Option.some.inj hk
              refine .scan_first ⟨t, pc, ended, slot, rfl⟩ list ?_
              rw [Caller.after]
              omega
          · cases hk
      · cases hk

/-- What is shown of a statement: nothing, or a step of `Server`. -/
def Shown (f : Locked) (s : Server) (b : ℕ) : Option Event → Prop
  | none => Mirrors f s b
  | some e => ∃ s', step s e = some s' ∧ Mirrors f s' b

theorem Shown.nothing (h : Mirrors f s b) : Shown f s b none := h

theorem Shown.step (h : Step s e s') (hm : Mirrors f s' b) : Shown f s b (some e) :=
  ⟨s', h.eq, hm⟩

/-- `remove_name` returns. -/
theorem Caller.Calls.finish (call : K.Calls f L W p R) (hs : s = f.server.share L W)
    (list : Keeps f (R.erase (f.server.players p).name) []) (hb : K.after L ≤ b) :
    Shown (f.finish p K) s b K.event := by
  subst hs
  cases K with
  | withdraw c ret =>
      obtain ⟨pc, rfl, ready, empty, rfl⟩ := call
      have hstep : Step (f.server.share R (some p)) (.recheck c ret) _ := .withdraw pc rfl ready
      exact .step hstep ⟨rfl, .unlock empty list hb⟩
  | first g p₂ =>
      obtain ⟨t, pc, ended, slot, rfl⟩ := call
      have hlen : (R.erase (f.server.players p).name).length ≤ R.length := List.length_erase_le
      refine .nothing ⟨rfl, .scan_first ⟨t, pc, ended, slot, rfl⟩ list ?_⟩
      simp only [Caller.after] at hb ⊢
      exact (Nat.add_le_add_right hlen 2).trans hb
  | second g p₁ =>
      obtain ⟨t, pc, ended, slot, rfl⟩ := call
      have hstep : Step (f.server.share L W) (.unregister g) _ := .unregister pc ended
      exact .step hstep ⟨rfl, .unlock slot list hb⟩

section

variable {ls : Store NodeAddr Name} {xs ys : List (NodeAddr × Name)} {n : NodeAddr}
  {junk : NameNode} {ok : Bool} {ret : ℤ}

/-- One round of the loop of `register_name`. -/
theorem look_inside (pc : v.handlers c = .opened name) (slot : v.waiting = W)
    (list : NodeList.Holds ls (xs ++ ys) []) (names : items (xs ++ ys) = L) (new : name ∉ items xs)
    (hb : ys.length + 6 ≤ b)
    (hrun : Locked.run ⟨v, ls, some (.look c name (lead ys none))⟩ n junk ok
      (.look c name (lead ys none)) = some f') :
    ∃ b' < b, Shown f' (v.share L W) b'
      (Locked.commit ⟨v, ls, some (.look c name (lead ys none))⟩ (.inside n junk ok)) := by
  cases ys with
  | nil =>
      obtain rfl := Option.some.inj hrun
      rw [List.append_nil] at names list
      rw [names] at new
      exact ⟨b - 1, by omega, .nothing ⟨rfl, .make pc slot ⟨xs, list, names⟩ new (by omega)⟩⟩
  | cons y ys =>
      obtain ⟨m, a⟩ := y
      have hnode : ls.node m = some ⟨a, lead ys none⟩ := list.node
      simp only [lead_cons, Locked.run, hnode, Option.map_some, Option.some.injEq] at hrun
      rw [List.length_cons] at hb
      by_cases ha : a = name
      · -- the name is on the list
        rw [if_pos ha] at hrun
        subst ha hrun
        have hcommit : Locked.commit ⟨v, ls, some (.look c a (some m))⟩ (.inside n junk ok) =
            some (.register c) := by
          simp only [Locked.commit, hnode, Option.map_some, if_true]
        have htaken : a ∈ L := by
          rw [← names, items, List.map_append]
          exact List.mem_append_right _ List.mem_cons_self
        have hstep : Step (v.share L W) (.register c) _ := .refuse pc htaken
        rw [lead_cons, hcommit]
        exact ⟨b - 1, by omega,
          .step hstep ⟨rfl, .unlock slot ⟨_, list, names⟩ (by omega)⟩⟩
      · rw [if_neg ha] at hrun
        subst hrun
        have hcommit : Locked.commit ⟨v, ls, some (.look c name (some m))⟩ (.inside n junk ok) =
            none := by
          simp only [Locked.commit, hnode, Option.map_some, Option.some.injEq, if_neg ha]
        rw [lead_cons, hcommit]
        have hxs : xs ++ (m, a) :: ys = xs ++ [(m, a)] ++ ys := by simp
        rw [hxs] at list names
        have hnew : name ∉ items (xs ++ [(m, a)]) := by
          simpa [items, Ne.symm ha] using new
        exact ⟨b - 1, by omega, .nothing ⟨rfl, .look pc slot list names hnew (by omega)⟩⟩

/-- `poll` has returned in the wait loop. -/
theorem recheck_inside (pc : v.handlers c = .waiting me) (slot : v.waiting = W)
    (list : Keeps ⟨v, ls, some (.recheck c me ret)⟩ L []) (hb : L.length + 4 ≤ b)
    (hrun : Locked.run ⟨v, ls, some (.recheck c me ret)⟩ n junk ok (.recheck c me ret) = some f') :
    ∃ b' < b, Shown f' (v.share L W) b'
      (Locked.commit ⟨v, ls, some (.recheck c me ret)⟩ (.inside n junk ok)) := by
  by_cases hme : v.waiting = some me
  · simp only [Locked.run, hme, ne_eq, not_true_eq_false, if_false, Option.some.injEq] at hrun
    subst hrun
    have here : W = some me := slot.symm.trans hme
    by_cases hret : 0 < ret
    · have hcommit : Locked.commit ⟨v, ls, some (.recheck c me ret)⟩ (.inside n junk ok) =
          none := by
        simp only [Locked.commit, hme, hret, and_self, if_true]
      have hafter : L.length + 3 ≤ b - 1 := by omega
      simp only [hcommit, if_pos hret]
      exact ⟨b - 1, by omega, .nothing ⟨rfl, .vacate pc list here hret hafter⟩⟩
    · have hcommit : Locked.commit ⟨v, ls, some (.recheck c me ret)⟩ (.inside n junk ok) =
          some (.recheck c ret) := by
        simp only [Locked.commit, hret, and_false, if_false]
      have hstep : Step (v.share L W) (.recheck c ret) _ := .again pc here hret
      simp only [hcommit, if_neg hret]
      exact ⟨b - 1, by omega, .step hstep ⟨rfl, .hold slot list here (by omega)⟩⟩
  · simp only [Locked.run, ne_eq, hme, not_false_eq_true, if_true, Option.some.injEq] at hrun
    subst hrun
    have hcommit : Locked.commit ⟨v, ls, some (.recheck c me ret)⟩ (.inside n junk ok) =
        some (.recheck c ret) := by
      simp only [Locked.commit, hme, false_and, if_false]
    have away : W ≠ some me := fun e => hme (slot.trans e)
    have hstep : Step (v.share L W) (.recheck c ret) _ := .matched pc away
    rw [hcommit]
    exact ⟨b - 1, by omega, .step hstep ⟨rfl, .unlock slot list (by omega)⟩⟩

/-- One round of the loop of `remove_name`. -/
theorem scan_inside (call : K.Calls ⟨v, ls, some (.scan p (cell xs) K)⟩ L W p (items (xs ++ ys)))
    (list : NodeList.Holds ls (xs ++ ys) []) (old : (v.players p).name ∉ items xs)
    (hb : ys.length + 1 + K.after L ≤ b)
    (hrun : Locked.run ⟨v, ls, some (.scan p (cell xs) K)⟩ n junk ok (.scan p (cell xs) K) =
      some f') :
    ∃ b' < b, Shown f' (v.share L W) b'
      (Locked.commit ⟨v, ls, some (.scan p (cell xs) K)⟩ (.inside n junk ok)) := by
  have hread : ls.read (cell xs) = some (lead ys none) := list.read
  cases ys with
  | nil =>
      simp only [Locked.run, hread, lead_nil, Option.some.injEq] at hrun
      subst hrun
      have hcommit : Locked.commit ⟨v, ls, some (.scan p (cell xs) K)⟩ (.inside n junk ok) =
          K.event := by
        simp only [Locked.commit, hread, lead_nil, if_true]
      rw [hcommit]
      rw [List.append_nil] at call list
      rw [List.length_nil] at hb
      have hkeeps : Keeps ⟨v, ls, some (.scan p (cell xs) K)⟩
          ((items xs).erase (v.players p).name) [] :=
        ⟨xs, list, (List.erase_of_not_mem old).symm⟩
      exact ⟨b - 1, by omega, call.finish rfl hkeeps (by omega)⟩
  | cons y ys =>
      obtain ⟨m, a⟩ := y
      have hnode : ls.node m = some ⟨a, lead ys none⟩ := list.node
      have hcommit : Locked.commit ⟨v, ls, some (.scan p (cell xs) K)⟩ (.inside n junk ok) =
          none := by
        simp only [Locked.commit, hread, lead_cons, Option.some.injEq, reduceCtorEq, if_false]
      simp only [Locked.run, hread, lead_cons, hnode, Option.bind_some] at hrun
      rw [hcommit]
      rw [List.length_cons] at hb
      by_cases ha : a = (v.players p).name
      · obtain ⟨ls', hwrite, hholds⟩ := list.unlink
        have hwrite : ls.write (cell xs) (lead ys none) = some ls' := hwrite
        rw [if_pos ha, hwrite, Option.map_some, Option.some.injEq] at hrun
        subst hrun
        have herase : items (xs ++ ys) =
            (items (xs ++ (m, a) :: ys)).erase (v.players p).name := by
          simp only [items, List.map_append, List.map_cons]
          rw [List.erase_append_right _ old, ha, List.erase_cons_head]
        have hafter : 1 + K.after L ≤ b - 1 := by omega
        exact ⟨b - 1, by omega, .nothing ⟨rfl,
          .drop call ⟨xs ++ ys, hholds, herase⟩ hafter⟩⟩
      · rw [if_neg ha, Option.some.injEq] at hrun
        subst hrun
        have hxs : xs ++ (m, a) :: ys = xs ++ [(m, a)] ++ ys := by simp
        rw [hxs] at call list
        have hold : (v.players p).name ∉ items (xs ++ [(m, a)]) := by
          simpa [items, Ne.symm ha] using old
        have hscan : Stands ⟨v, ls, some (.scan p (some m) K)⟩ L W
            (some (.scan p (cell (xs ++ [(m, a)])) K)) (b - 1) :=
          .scan call list hold (by omega)
        rw [cell_concat] at hscan
        exact ⟨b - 1, by omega, .nothing ⟨rfl, hscan⟩⟩

end

/-- A statement of the thread inside: it is shown as nothing or as a step of `Server`, and there are
fewer left. -/
theorem Mirrors.inside {n : NodeAddr} {junk : NameNode} {ok : Bool} (h : Mirrors f s b)
    (hk : f.holder = some k) (hrun : f.run n junk ok k = some f') :
    ∃ b' < b, Shown f' s b' (f.commit (.inside n junk ok)) := by
  obtain ⟨v, ls, holder⟩ := f
  obtain rfl : holder = some k := hk
  obtain ⟨hrest, hw⟩ := h
  generalize s.names = L at hrest hw
  generalize s.waiting = W at hrest hw
  subst hrest
  cases hw with
  | find pc slot list hb =>
      obtain rfl := Option.some.inj hrun
      have hafter : L.length + 6 ≤ b - 1 := by omega
      exact ⟨b - 1, by omega, .nothing ⟨rfl, .look_first pc slot list hafter⟩⟩
  | look pc slot list names new hb => exact look_inside pc slot list names new hb hrun
  | make pc slot list new hb =>
      simp only [Locked.run] at hrun
      split at hrun
      · cases hrun
      · next hn =>
          obtain rfl := Option.some.inj hrun
          obtain ⟨cells, hcells, hnames⟩ := list
          have hnone : ls.node n = none := by simpa using hn
          exact ⟨b - 1, by omega, .nothing ⟨rfl,
            .fill pc slot ⟨cells, hcells.alloc hnone junk, hnames⟩ new (by omega)⟩⟩
  | @fill c name m _ pc slot list new hb =>
      obtain ⟨cells, hcells, hnames⟩ := list
      obtain ⟨x, hx⟩ : ∃ x, ls.node m = some x :=
        Option.isSome_iff_exists.mp hcells.extra_allocated
      simp only [Locked.run, hx, Option.map_some, Option.some.injEq] at hrun
      subst hrun
      exact ⟨b - 1, by omega, .nothing ⟨rfl, .chain (x := { x with item := name }) pc slot
        ⟨cells, hcells.fill _, hnames⟩ new Store.set_self (by omega)⟩⟩
  | @chain c m x _ pc slot list new node hb =>
      obtain ⟨cells, hcells, hnames⟩ := list
      have hnode : ls.node m = some x := node
      simp only [Locked.run, hnode, Option.map_some, Option.some.injEq] at hrun
      subst hrun
      exact ⟨b - 1, by omega, .nothing ⟨rfl,
        .link pc slot ⟨cells, hcells.fill _, hnames⟩ new Store.set_self (by omega)⟩⟩
  | @link c name m _ pc slot list new node hb =>
      obtain rfl := Option.some.inj hrun
      obtain ⟨cells, hcells, hnames⟩ := list
      have hstep : Step (v.share L W) (.register c) _ := .register pc new
      exact ⟨b - 1, by omega, .step hstep ⟨rfl,
        .unlock slot ⟨(m, name) :: cells, hcells.push node, congrArg _ hnames⟩ (by omega)⟩⟩
  | meet pc slot list hb =>
      obtain rfl := Option.some.inj hrun
      refine ⟨b - 1, by omega, .nothing ⟨rfl, ?_⟩⟩
      by_cases hnone : v.waiting = none
      · simp only [Locked.goto, if_pos hnone]
        exact .occupy pc list (slot.symm.trans hnone) (by omega)
      · simp only [Locked.goto, if_neg hnone]
        exact .claim pc slot list (slot ▸ hnone) (by omega)
  | @occupy c me _ pc list empty hb =>
      obtain rfl := Option.some.inj hrun
      have hstep : Step (v.share L W) (.enter c ok) _ := .take pc empty
      exact ⟨b - 1, by omega, .step hstep ⟨rfl, .hold rfl list rfl (by omega)⟩⟩
  | hold slot list here hb =>
      have hhere : v.waiting = some _ := slot.trans here
      simp only [Locked.run, if_pos hhere, Option.some.injEq] at hrun
      subst hrun
      exact ⟨b - 1, by omega, .nothing ⟨rfl, .unlock slot list (by omega)⟩⟩
  | claim pc slot list waits hb =>
      obtain ⟨o, rfl⟩ := Option.ne_none_iff_exists'.mp waits
      have ho : v.waiting = some o := slot
      simp only [Locked.run, ho, Option.map_some, Option.some.injEq] at hrun
      subst hrun
      exact ⟨b - 1, by omega, .nothing ⟨rfl, .clear pc list rfl (by omega)⟩⟩
  | clear pc list waits hb =>
      obtain rfl := Option.some.inj hrun
      exact ⟨b - 1, by omega, .nothing ⟨rfl, .start pc rfl list waits (by omega)⟩⟩
  | @start c me o _ pc slot list waits hb =>
      obtain rfl := Option.some.inj hrun
      have hstep : Step (v.share L W) (.enter c ok) _ :=
        .pair (s := v.share L W) pc waits rfl
      exact ⟨b - 1, by omega, .step hstep ⟨rfl, .unlock slot list (by omega)⟩⟩
  | recheck pc slot list hb => exact recheck_inside pc slot list hb hrun
  | @vacate c me ret _ pc list here ready hb =>
      obtain rfl := Option.some.inj hrun
      have hafter : L.length + 1 + Caller.after L (.withdraw c ret) ≤ b - 1 := by
        simp only [Caller.after]
        omega
      exact ⟨b - 1, by omega, .nothing ⟨rfl, .scan_first ⟨pc, here, ready, rfl, rfl⟩ list hafter⟩⟩
  | scan call list old hb => exact scan_inside call list old hb hrun
  | @drop p R K m _ call list hb =>
      obtain ⟨cells, hcells, hnames⟩ := list
      obtain ⟨x, hx⟩ : ∃ x, ls.node m = some x :=
        Option.isSome_iff_exists.mp hcells.extra_allocated
      simp only [Locked.run, hx, Option.map_some, Option.some.injEq] at hrun
      subst hrun
      have hkeeps : Keeps ⟨v, ls.free m, some (.drop p m K)⟩ (R.erase (v.players p).name) [] :=
        ⟨cells, hcells.free, hnames⟩
      exact ⟨b - 1, by omega,
        Caller.Calls.finish (f := ⟨v, ls.free m, some (.drop p m K)⟩) call rfl hkeeps (by omega)⟩
  | unlock slot list hb =>
      obtain rfl := Option.some.inj hrun
      exact ⟨b - 1, by omega, .nothing ⟨rfl, .free slot list⟩⟩

/-- The thread inside is never stuck: no pointer it follows is dangling. -/
theorem Stands.runs {n : NodeAddr} {junk : NameNode} {ok : Bool} (h : Stands f L W (some k) b)
    (hn : f.list.node n = none) : (f.run n junk ok k).isSome = true := by
  cases h with
  | find | link | meet | occupy | clear | start | vacate | unlock => rfl
  | @look c name xs ys _ pc slot list names new hb =>
      cases ys with
      | nil => rfl
      | cons y ys =>
          obtain ⟨m, a⟩ := y
          rw [lead_cons, Locked.run, Option.isSome_map, list.node]
          rfl
  | make =>
      rw [Locked.run, hn]
      rfl
  | fill pc slot list new hb =>
      obtain ⟨cells, hcells, -⟩ := list
      rw [Locked.run, Option.isSome_map]
      exact hcells.extra_allocated
  | chain pc slot list new node hb =>
      rw [Locked.run, Option.isSome_map, node]
      rfl
  | hold | recheck =>
      rw [Locked.run]
      split <;> rfl
  | claim pc slot list waits hb =>
      rw [Locked.run, Option.isSome_map, slot]
      exact Option.isSome_iff_ne_none.mpr waits
  | @scan p K xs ys _ call list old hb =>
      rw [Locked.run, list.read]
      cases ys with
      | nil => rfl
      | cons y ys =>
          obtain ⟨m, a⟩ := y
          obtain ⟨ls, hwrite, -⟩ := list.unlink
          simp only [lead_cons, list.node, Option.bind_some]
          split
          · rw [hwrite]
            rfl
          · rfl
  | drop call list hb =>
      obtain ⟨cells, hcells, -⟩ := list
      rw [Locked.run, Option.isSome_map]
      exact hcells.extra_allocated

/-! ### Every run -/

theorem Locked.step_inside {n : NodeAddr} {junk : NameNode} {ok : Bool}
    (h : f.step (.inside n junk ok) = some f') :
    ∃ k, f.holder = some k ∧ f.run n junk ok k = some f' :=
  Option.bind_eq_some_iff.mp h

theorem Locked.step_lock {ret : ℤ} (h : f.step (.lock T ret) = some f') :
    f.holder = none ∧ ∃ k, f.server.lock ret T = some k ∧ f' = { f with holder := some k } := by
  rw [Locked.step] at h
  split at h
  · next hfree =>
      obtain ⟨k, hk, rfl⟩ := Option.map_eq_some_iff.mp h
      exact ⟨Option.isNone_iff_eq_none.mp hfree, k, hk, rfl⟩
  · cases h

theorem Locked.step_outside (h : f.step (.outside e) = some f') :
    e.outside = true ∧ f.holder.map Inside.task ≠ some e.task ∧
      ∃ v, Nim.step f.server e = some v ∧ f' = { f with server := v } := by
  rw [Locked.step] at h
  split at h
  · next hguard =>
      obtain ⟨v, hv, rfl⟩ := Option.map_eq_some_iff.mp h
      exact ⟨hguard.1, hguard.2, v, hv, rfl⟩
  · cases h

theorem Mirrors.initial : Mirrors Locked.initial Nim.initial 0 where
  rest := rfl
  within := .free rfl ⟨[], ⟨rfl, trivial, List.nodup_nil, fun n => by simp [Locked.initial]⟩, rfl⟩

/-- Every turn is shown as nothing or as a step of `Server`. -/
theorem Mirrors.step {t : Turn} (h : Mirrors f s b) (hs : Orderly s) (ht : f.step t = some f') :
    ∃ b', Shown f' s b' (f.commit t) := by
  cases t with
  | outside e =>
      obtain ⟨he, hT, v, hv, rfl⟩ := Locked.step_outside ht
      exact ⟨b, h.outside hs he hT hv⟩
  | lock T ret =>
      obtain ⟨hfree, k, hk, rfl⟩ := Locked.step_lock ht
      exact ⟨_, h.lock hfree hk⟩
  | inside n junk ok =>
      obtain ⟨k, hk, hrun⟩ := Locked.step_inside ht
      obtain ⟨b', -, hb'⟩ := h.inside hk hrun
      exact ⟨b', hb'⟩

theorem Shown.orderly {ev : Option Event} (h : Shown f s b ev) (hs : Orderly s) :
    ∃ s', Mirrors f s' b ∧ Orderly s' := by
  cases ev with
  | none => exact ⟨s, h, hs⟩
  | some e =>
      obtain ⟨s', hstep, hm⟩ := h
      exact ⟨s', hm, hs.step (step_cases hstep)⟩

/-- The process mirrors a state that a run reaches. -/
def Follows (f : Locked) (s : Server) : Prop := ∃ b, Mirrors f s b ∧ Orderly s

theorem Follows.step {t : Turn} (h : Follows f s) (ht : f.step t = some f') :
    (f.commit t = none → Follows f' s) ∧
      ∀ e, f.commit t = some e → ∃ s', Nim.step s e = some s' ∧ Follows f' s' := by
  obtain ⟨b, hm, hs⟩ := h
  obtain ⟨b', hb'⟩ := hm.step hs ht
  refine ⟨fun hnone => ?_, fun e he => ?_⟩
  · rw [hnone] at hb'
    exact ⟨b', hb', hs⟩
  · rw [he] at hb'
    obtain ⟨s', hstep, hm'⟩ := hb'
    exact ⟨s', hstep, b', hm', hs.step (step_cases hstep)⟩

/-- What a run shows. -/
theorem run_follows {ts : List Turn}
    (h : Run Locked.step (fun _ _ => True) Locked.initial ts f) :
    ∃ s, Run step (fun _ _ => True) initial
        (Run.shown Locked.step Locked.commit Locked.initial ts) s ∧ Follows f s :=
  h.coarsen (fun _ _ _ _ hf _ ht => hf.step ht) ⟨0, .initial, orderly_initial⟩

/-- **Critical sections are atomic.**  Every run of the process, with the statements of the thread
that holds the lock and the steps of the other threads in any order, is a run of `Server`, on the
steps it completes, in the order in which it completes them.  The states agree in all that no lock
protects; and when the lock is free, they agree in the waiting slot too, the nodes of `active_names`
hold the names on the list, in order, and no other node is allocated. -/
theorem lock_refines {ts : List Turn}
    (h : Run Locked.step (fun _ _ => True) Locked.initial ts f) :
    ∃ s, Run step (fun _ _ => True) initial
        (Run.shown Locked.step Locked.commit Locked.initial ts) s ∧ Agrees f s := by
  obtain ⟨s, hrun, b, hm, -⟩ := run_follows h
  exact ⟨s, hrun, hm.agrees⟩

/-- As long as the lock is held, each statement inside brings the thread nearer to the end. -/
theorem Mirrors.count {ts : List Turn} (h : Run Locked.step (fun f _ => f.holder ≠ none) f ts f')
    (hm : Mirrors f s b) (hs : Orderly s) : ts.countP Turn.isInside ≤ b := by
  induction h generalizing s b with
  | nil => exact Nat.zero_le b
  | @cons f f₁ f' t ts held ht _ ih =>
      cases t with
      | outside e =>
          obtain ⟨he, hT, v, hv, rfl⟩ := Locked.step_outside ht
          obtain ⟨s', hstep, hm'⟩ := hm.outside hs he hT hv
          exact ih hm' (hs.step (step_cases hstep))
      | lock T ret => exact absurd (Locked.step_lock ht).1 held
      | inside n junk ok =>
          obtain ⟨k, hk, hrun⟩ := Locked.step_inside ht
          obtain ⟨b', hlt, hb'⟩ := hm.inside hk hrun
          obtain ⟨s', hm', hs'⟩ := hb'.orderly hs
          have hcount := ih hm' hs'
          rw [List.countP_cons_of_pos rfl]
          omega

/-- **The lock is released.**  The thread that holds the lock can always go on, whatever the other
threads do: it follows no pointer to a node that is not allocated.  And a thread that gets the lock
runs at most 7 statements before it is released, and 2 more for each name on the list, where a pass
of a loop over the list is one statement (`Inside`). -/
theorem lock_released {ts : List Turn}
    (h : Run Locked.step (fun _ _ => True) Locked.initial ts f) :
    (f.holder ≠ none → ∀ n junk ok, f.list.node n = none →
      (f.step (.inside n junk ok)).isSome = true) ∧
    (f.holder = none → ∃ cells, NodeList.Holds f.list cells [] ∧
      ∀ T ret f₁ ts' f', f.step (.lock T ret) = some f₁ →
        Run Locked.step (fun f _ => f.holder ≠ none) f₁ ts' f' →
        ts'.countP Turn.isInside ≤ 2 * cells.length + 7) := by
  obtain ⟨s, -, b, hm, hs⟩ := run_follows h
  constructor
  · intro hheld n junk ok hn
    obtain ⟨k, hk⟩ := Option.ne_none_iff_exists'.mp hheld
    have hw := hm.within
    rw [hk] at hw
    rw [Locked.step, hk, Option.bind_some]
    exact hw.runs hn
  · intro hfree
    obtain ⟨-, cells, hcells, hnames⟩ := hm.agrees.free hfree
    refine ⟨cells, hcells, fun T ret f₁ ts' f' hlock hrun => ?_⟩
    obtain ⟨-, k, hk, rfl⟩ := Locked.step_lock hlock
    rw [length_of_items hnames]
    exact Mirrors.count hrun (hm.lock hfree hk) hs

/-- Ann registers.  Another client comes while her node is filled, with the same name, and gets the
lock behind her. -/
def sampleTurns : List Turn :=
  let go : Turn := .inside 7 ⟨⟨[], by decide⟩, some 3⟩ true
  [.outside (.accept 3), .outside (.spawn 0 true),
    .outside (.receive 0 (.message (ascii "OPEN") (ascii "Ann"))), .lock (.client 0) 0, go, go, go,
    .outside (.accept 4), go, .outside (.spawn 1 true), go, go,
    .outside (.receive 1 (.message (ascii "OPEN") (ascii "Ann"))), go, .lock (.client 1) 0]

theorem sampleTurns_run :
    (Run.exec Locked.step (fun _ _ => True) Locked.initial sampleTurns).isSome = true := by
  decide +kernel

theorem lock_refines_sample : ∃ s, Run step (fun _ _ => True) initial
    [.accept 3, .spawn 0 true, .receive 0 (.message (ascii "OPEN") (ascii "Ann")), .accept 4,
      .spawn 1 true, .register 0, .receive 1 (.message (ascii "OPEN") (ascii "Ann"))] s ∧
    Agrees ((Run.exec Locked.step (fun _ _ => True) Locked.initial sampleTurns).get
      sampleTurns_run) s :=
  lock_refines (Run.of_isSome sampleTurns_run)

/-- The second client can go on. -/
theorem lock_released_sample :
    (((Run.exec Locked.step (fun _ _ => True) Locked.initial sampleTurns).get
      sampleTurns_run).step (.inside 8 ⟨⟨[], by decide⟩, none⟩ true)).isSome = true :=
  (lock_released (Run.of_isSome sampleTurns_run)).1 (by decide +kernel) 8 _ true (by decide +kernel)

end CS214.Nim
