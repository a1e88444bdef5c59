import JfsFuse.Lib.Program

/-!
# Programs that poll for an interrupt

A program is given the answers of the polls to come and hands on those that it did not use; a list
of answers that has come to its end answers no.  Such a program is the program without polls, cut off
at the first poll that is answered yes: in every state it makes some number of polls, and only the
answers to these matter.
-/

namespace Program

variable {ε σ α β : Type}

/-- The answer to poll `k`. -/
def answer (token : List Bool) (k : ℕ) : Bool :=
  token.getD k false

theorem answer_drop (token : List Bool) (n k : ℕ) : answer (token.drop n) k = answer token (n + k) := by
  unfold answer
  rw [List.getD_eq_getElem?_getD, List.getD_eq_getElem?_getD, List.getElem?_drop]

/-- A result whose polls are left over. -/
def withToken (put : List Bool → α → α) (token : List Bool) : EStateM.Result ε σ α → EStateM.Result ε σ α
  | .ok a s => .ok (put token a) s
  | .error e s => .error e s

/-- Some of the first `n` polls is answered yes. -/
def Asked (token : List Bool) (n : ℕ) : Prop :=
  ∃ k < n, answer token k = true

/-- The program polls: `put` stores the answers that are left in a result, and `e` is the error of an
interrupt. -/
def Polled (e : ε) (put : List Bool → α → α) (run : List Bool → EStateM ε σ α) : Prop :=
  ∀ s, ∃ n, ∀ token, (Asked token n → ∃ s', run token s = .error e s') ∧
    (¬ Asked token n → run token s = withToken put (token.drop n) (run [] s))

theorem not_asked_nil (n : ℕ) : ¬ Asked [] n := by
  rintro ⟨k, -, hk⟩
  unfold answer at hk
  rw [List.getD_nil] at hk
  cases hk

theorem asked_add (token : List Bool) (m n : ℕ) : Asked token (m + n) ↔ Asked token m ∨ Asked (token.drop m) n := by
  constructor
  · rintro ⟨k, hk, hanswer⟩
    rcases Nat.lt_or_ge k m with hlt | hge
    · exact .inl ⟨k, hlt, hanswer⟩
    · refine .inr ⟨k - m, by omega, ?_⟩
      rw [answer_drop, Nat.add_sub_cancel' hge]
      exact hanswer
  · rintro (⟨k, hk, hanswer⟩ | ⟨k, hk, hanswer⟩)
    · exact ⟨k, by omega, hanswer⟩
    · rw [answer_drop] at hanswer
      exact ⟨m + k, by omega, hanswer⟩

section Polled

variable {e : ε} {put : List Bool → α → α} {put' : List Bool → β → β}

/-- A program that makes no poll. -/
theorem Polled.of_eq {run : List Bool → EStateM ε σ α} (h : ∀ token s, run token s = withToken put token (run [] s)) :
    Polled e put run := by
  refine fun s => ⟨0, fun token => ⟨?_, fun _ => h token s⟩⟩
  rintro ⟨k, hk, -⟩
  exact absurd hk (Nat.not_lt_zero k)

/-- A program without polls, whose result has no answers in it. -/
theorem Polled.plain (x : EStateM ε σ α) : Polled e (fun _ a => a) fun _ => x := by
  apply Polled.of_eq
  intro token s
  cases x s <;> rfl

/-- **A poll**. -/
theorem Polled.poll {run : List Bool → EStateM ε σ α} (h : Polled e put run) :
    Polled e put fun token => if token.headD false then throw e else run token.tail := by
  intro s
  obtain ⟨n, hn⟩ := h s
  refine ⟨n + 1, fun token => ?_⟩
  have hanswer : answer token 0 = token.headD false := by
    cases token <;> rfl
  have hdrop : token.drop 1 = token.tail := by
    cases token <;> rfl
  rw [Nat.add_comm n 1, asked_add, hdrop]
  cases hhead : token.headD false with
  | true =>
      refine ⟨fun _ => ⟨s, ?_⟩, fun hnone => absurd (.inl ⟨0, Nat.one_pos, hanswer.trans hhead⟩) hnone⟩
      show (if token.headD false then throw e else run token.tail : EStateM ε σ α) s = _
      rw [hhead, if_pos rfl]
      rfl
  | false =>
      obtain ⟨hasked, hnot⟩ := hn token.tail
      have hfirst : ¬ Asked token 1 := by
        rintro ⟨k, hk, hyes⟩
        rw [Nat.lt_one_iff.mp hk, hanswer, hhead] at hyes
        cases hyes
      have hthen : (if token.headD false then throw e else run token.tail : EStateM ε σ α) s = run token.tail s := by
        rw [hhead, if_neg Bool.false_ne_true]
      refine ⟨fun h => ?_, fun h => ?_⟩
      · obtain ⟨s', hs'⟩ := hasked (h.resolve_left hfirst)
        exact ⟨s', hthen.trans hs'⟩
      · refine hthen.trans ((hnot fun h' => h (.inr h')).trans ?_)
        rw [← hdrop, List.drop_drop]
        rfl

/-- A poll that is a program of its own. -/
theorem Polled.check {check : List Bool → EStateM ε σ (List Bool)} {run : List Bool → EStateM ε σ α}
    (hcheck : ∀ token s, check token s = if token.headD false then .error e s else .ok token.tail s)
    (h : Polled e put run) : Polled e put fun token => check token >>= run := by
  have hpoll : (fun token => check token >>= run) = fun token =>
      if token.headD false then throw e else run token.tail := by
    funext token
    funext s
    have hstart := hcheck token s
    cases hhead : token.headD false with
    | true =>
        rw [hhead, if_pos rfl] at hstart
        exact bind_error hstart
    | false =>
        rw [hhead, if_neg Bool.false_ne_true] at hstart
        exact bind_ok hstart
  rw [hpoll]
  exact h.poll

theorem Polled.ite {run run' : List Bool → EStateM ε σ α} {c : Prop} [Decidable c] (h : Polled e put run)
    (h' : Polled e put run') : Polled e put fun token => if c then run token else run' token := by
  by_cases hc : c
  · simpa only [if_pos hc] using h
  · simpa only [if_neg hc] using h'

/-- **Two programs** one after the other; the second one polls what the first one leaves. -/
theorem Polled.bind {run : List Bool → EStateM ε σ α} {f : α → EStateM ε σ β} (h : Polled e put run)
    (hf : ∀ a, Polled e put' fun token => f (put token a)) : Polled e put' fun token => run token >>= f := by
  intro s
  obtain ⟨n, hn⟩ := h s
  cases hrun : run [] s with
  | error e' s' =>
      refine ⟨n, fun token => ?_⟩
      obtain ⟨hasked, hnot⟩ := hn token
      refine ⟨fun h => ?_, fun h => ?_⟩
      · obtain ⟨t, ht⟩ := hasked h
        exact ⟨t, bind_error ht⟩
      · have hplain := hnot h
        rw [hrun] at hplain
        exact (bind_error hplain).trans (congrArg (withToken put' (token.drop n)) (bind_error hrun)).symm
  | ok a s' =>
      obtain ⟨m, hm⟩ := hf a s'
      -- the program leaves no answers when it was given none
      have hempty : a = put [] a := by
        have hnil := (hn []).2 (not_asked_nil n)
        rw [hrun, List.drop_nil] at hnil
        injection hnil
      refine ⟨n + m, fun token => ?_⟩
      obtain ⟨hasked, hnot⟩ := hn token
      obtain ⟨hasked', hnot'⟩ := hm (token.drop n)
      rw [asked_add]
      by_cases hfirst : Asked token n
      · refine ⟨fun _ => ?_, fun hnone => absurd (.inl hfirst) hnone⟩
        obtain ⟨t, ht⟩ := hasked hfirst
        exact ⟨t, bind_error ht⟩
      · have hplain := hnot hfirst
        rw [hrun] at hplain
        have hthen : (run token >>= f) s = f (put (token.drop n) a) s' := bind_ok hplain
        have hbase : (run [] >>= f) s = f (put [] a) s' := (bind_ok hrun).trans (congrArg (fun x => f x s') hempty)
        refine ⟨fun h => ?_, fun h => ?_⟩
        · obtain ⟨t, ht⟩ := hasked' (h.resolve_left hfirst)
          exact ⟨t, hthen.trans ht⟩
        · refine hthen.trans ((hnot' fun h' => h (.inr h')).trans ?_)
          rw [List.drop_drop]
          exact congrArg (withToken put' (token.drop (n + m))) hbase.symm

/-- A program without polls comes first. -/
theorem Polled.after (x : EStateM ε σ α) {f : α → List Bool → EStateM ε σ β} (hf : ∀ a, Polled e put' (f a)) :
    Polled e put' fun token => x >>= fun a => f a token := by
  intro s
  cases hx : x s with
  | ok a s' =>
      obtain ⟨n, hn⟩ := hf a s'
      have hthen : ∀ token, (x >>= fun a => f a token) s = f a token s' := fun token => bind_ok hx
      refine ⟨n, fun token => ⟨fun h => ?_, fun h => ?_⟩⟩
      · obtain ⟨t, ht⟩ := (hn token).1 h
        exact ⟨t, (hthen token).trans ht⟩
      · refine (hthen token).trans (((hn token).2 h).trans ?_)
        exact congrArg (withToken put' (token.drop n)) (hthen []).symm
  | error e' s' =>
      have hthen : ∀ token, (x >>= fun a => f a token) s = .error e' s' := fun token => bind_error hx
      refine ⟨0, fun token => ⟨?_, fun _ => ?_⟩⟩
      · rintro ⟨k, hk, -⟩
        exact absurd hk (Nat.not_lt_zero k)
      · exact (hthen token).trans (congrArg (withToken put' token) (hthen [])).symm

/-- The program runs on a part of the state. -/
theorem Polled.zoom {τ : Type} {get : τ → σ} {set : σ → τ → τ} {run : List Bool → EStateM ε σ α}
    (h : Polled e put run) : Polled e put fun token => zoom get set (run token) := by
  intro t
  obtain ⟨n, hn⟩ := h (get t)
  refine ⟨n, fun token => ⟨fun hasked => ?_, fun hnot => ?_⟩⟩
  · obtain ⟨s', hs'⟩ := (hn token).1 hasked
    exact ⟨set s' t, zoom_error hs'⟩
  · have hplain := (hn token).2 hnot
    cases hrun : run [] (get t) with
    | ok a s' =>
        rw [hrun] at hplain
        exact (zoom_ok hplain).trans (congrArg (withToken put (token.drop n)) (zoom_ok hrun)).symm
    | error e' s' =>
        rw [hrun] at hplain
        exact (zoom_error hplain).trans (congrArg (withToken put (token.drop n)) (zoom_error hrun)).symm

end Polled

end Program
