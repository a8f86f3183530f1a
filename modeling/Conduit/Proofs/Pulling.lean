import Conduit.Bridge.Outbound
import Conduit.Proofs.Output

namespace Conduit

namespace Wire

inductive Source.Pulled {σ : Type} (pull : Source σ) : σ → List Message → σ → Bool → Prop where
  | done (s : σ) : Pulled pull s [] s false
  | dry {s s' : σ} (nothing : pull s = (none, s')) : Pulled pull s [] s' true
  | more {s s' s'' : σ} {m : Message} {ms : List Message} {dry : Bool}
    (next : pull s = (some m, s')) (others : Pulled pull s' ms s'' dry) :
    Pulled pull s (m :: ms) s'' dry

namespace Source.Pulled

variable {σ : Type} {pull : Source σ} {s s' s'' : σ} {ms others : List Message} {dry : Bool}

theorem trans (h : Pulled pull s ms s' false) (h' : Pulled pull s' others s'' dry) :
    Pulled pull s (ms ++ others) s'' dry := by
  generalize found : false = wet at h
  induction h with
  | done => exact h'
  | dry => cases found
  | more next _ ih => exact .more next (ih h' found)

theorem eq_nil_of_dry {s s' : Unit} (h : Pulled Source.dry s ms s' dry) : ms = [] := by
  cases h with
  | done | dry => rfl
  | more next => exact absurd (Prod.mk.inj next).1 nofun

end Source.Pulled

namespace Encoder

variable {f : Framing} {e e' e'' : Encoder f.dialect} {ms others : List Message} {σ : Type}
  {pull : Source σ} {s : σ}

/-- What is pulled in between comes behind what was pulled before. -/
theorem HandsOut.append {bytes more : Bytes} (h : e.HandsOut ms bytes [] e')
    (next : e'.HandsOut others more [] e'') :
    e.HandsOut (ms ++ others) (bytes ++ more) [] e'' := by
  refine ⟨next.sound, ?_, next.bufferSize.trans h.bufferSize⟩
  have first := h.bytes
  have second := next.bytes
  rw [f.wire_eq_frames, f.wire_eq_frames] at first second ⊢
  have none_behind : f.frames [] = [] := rfl
  rw [none_behind, List.append_nil] at first second ⊢
  rw [f.frames_append, ← List.append_assoc, first, List.append_assoc, second, List.append_assoc]

theorem refill_pulls (pull : Source σ) (s : σ) (e : Encoder f.dialect) :
    ∃ ms, pull.Pulled s ms (e.refill pull s).1 (e.refill pull s).2.isIdle ∧
      (e.Sound → e.HandsOut ms [] [] (e.refill pull s).2) := by
  unfold refill
  by_cases idle : e.isIdle = true
  · rw [if_pos idle]
    match next : pull s with
    | (none, s') =>
      dsimp only
      rw [idle]
      exact ⟨[], .dry next, .none⟩
    | (some m, s') =>
      refine ⟨[m], .more next (.done s'), fun _ ↦ ⟨fun _ ↦ f.header_ne_nil m, ?_, rfl⟩⟩
      rw [due_of_isIdle idle, Dialect.wire_cons, List.nil_append, List.nil_append,
        ← List.append_assoc]
      rfl
  · rw [if_neg idle]
    dsimp only
    rw [Bool.not_eq_true] at idle
    rw [idle]
    exact ⟨[], .done s, .none⟩

theorem fill_pulls (pull : Source σ) (s : σ) (e : Encoder f.dialect) (turns room : Nat) :
    let (bytes, s', e') := fill pull turns s e room
    ∃ ms dry, pull.Pulled s ms s' dry ∧ (dry = true → e'.isIdle = true) ∧
      (e.Sound → e.HandsOut ms bytes [] e' ∧
        (room ≤ turns → bytes.length < room → dry = true)) := by
  induction turns generalizing s e room with
  | zero =>
    exact ⟨[], false, .done s, nofun, fun sound ↦ ⟨.none sound, fun enough short ↦ by omega⟩⟩
  | succ turns ih =>
    obtain ⟨ms, pulled, refilled⟩ := refill_pulls pull s e
    rw [fill]
    by_cases none : room = 0
    · rw [if_pos none]
      exact ⟨[], false, .done s, nofun, fun sound ↦ ⟨.none sound, fun _ short ↦ by omega⟩⟩
    rw [if_neg none]
    generalize e.refill pull s = r at pulled refilled ⊢
    obtain ⟨s', e'⟩ := r
    dsimp only at pulled refilled ⊢
    by_cases idle : e'.isIdle = true
    · rw [if_pos idle]
      rw [idle] at pulled
      exact ⟨ms, true, pulled, fun _ ↦ idle, fun sound ↦ ⟨refilled sound, fun _ _ ↦ rfl⟩⟩
    · rw [if_neg idle]
      rw [Bool.eq_false_of_not_eq_true idle] at pulled
      obtain ⟨others, dry, behind, ends, filled⟩ :=
        ih s' (e'.emit room).2 (room - (e'.emit room).1.length)
      refine ⟨ms ++ others, dry, pulled.trans behind, ends, fun sound ↦ ?_⟩
      have handed := refilled sound
      have rest := List.length_pos_iff.mpr (handed.sound (by simpa using idle))
      obtain ⟨emitted, length⟩ := emit_handsOut e' [] room
      obtain ⟨filled, short⟩ := filled emitted.sound
      refine ⟨handed.append (emitted.append filled), fun enough unfilled ↦ short ?_ ?_⟩
      · omega
      · rw [List.length_append] at unfilled
        omega

end Encoder

end Wire

namespace Bridge

open Wire

namespace Outbound

variable {f : Framing} {σ : Type} {pull : Source σ}

theorem pull_of_counted {start rest : Nat × σ} {m : Option Message}
    (h : counted pull start = (m, rest)) : pull start.2 = (m, rest.2) := by
  obtain ⟨n, s⟩ := start
  rw [counted] at h
  split at h <;> rename_i found <;> obtain ⟨rfl, rfl⟩ := Prod.mk.inj h <;> exact found

theorem pulled_of_counted {start rest : Nat × σ} {ms : List Message} {dry : Bool}
    (h : (counted pull).Pulled start ms rest dry) : pull.Pulled start.2 ms rest.2 dry := by
  induction h with
  | done s => exact .done s.2
  | dry nothing => exact .dry (pull_of_counted nothing)
  | more next _ ih => exact .more (pull_of_counted next) ih

def due {d : Dialect} (o : Outbound d) : Bytes := o.pending ++ o.encoder.due

theorem refill_busy {o : Outbound f.dialect} (busy : o.pending ≠ []) (pull : Source σ) (s : σ) :
    o.refill pull s = (0, s, o) := by
  rw [refill, if_pos (by simpa using busy)]

/-- What is pulled is written behind what is due. Nothing is pending only if nothing was left to
pull, and a source that ran dry leaves no frame half encoded. -/
theorem refill_pulls (o : Outbound f.dialect) (pull : Source σ) (s : σ) :
    let refilled := o.refill pull s
    let o' := refilled.2.2
    ∃ ms dry, pull.Pulled s ms refilled.2.1 dry ∧ (dry = true → o'.encoder.due = []) ∧
      o'.bufferSize = o.bufferSize ∧
      (o.encoder.Sound → o'.encoder.Sound ∧ o.due ++ f.frames ms = o'.due ∧
        (0 < o.bufferSize → o'.pending = [] → dry = true)) := by
  have none_pulled (ms : Bytes) : ms ++ f.frames [] = ms := List.append_nil ms
  by_cases busy : o.pending = []
  case neg =>
    rw [refill_busy busy]
    exact ⟨[], false, .done s, nofun, rfl,
      fun sound ↦ ⟨sound, none_pulled _, fun _ empty ↦ absurd empty busy⟩⟩
  unfold refill
  rw [if_neg (by simpa using busy)]
  rcases o.encoder.takeBody_eq o.bufferSize with kept | ⟨within, taken⟩
  · obtain ⟨ms, dry, pulled, ends, filled⟩ :=
      Encoder.fill_pulls (counted pull) (0, s) o.encoder o.bufferSize o.bufferSize
    rw [kept]
    dsimp only [Encoder.encodeInto]
    refine ⟨ms, dry, pulled_of_counted pulled, fun dry ↦ Encoder.due_of_isIdle (ends dry), rfl,
      fun sound ↦ ?_⟩
    obtain ⟨handed, short⟩ := filled sound
    refine ⟨handed.sound, ?_, fun buffered empty ↦ ?_⟩
    · have bytes := handed.bytes
      rw [f.wire_eq_frames, f.wire_eq_frames, none_pulled] at bytes
      rw [due, busy]
      exact bytes
    · have unfilled := congrArg List.length empty
      exact short le_rfl (unfilled.trans_lt buffered)
  · rw [taken]
    refine ⟨[], false, .done s, nofun, rfl, fun sound ↦ ?_⟩
    have handed : o.encoder.HandsOut [] o.encoder.rest [] o.encoder.advance :=
      o.encoder.advance_handsOut
    refine ⟨handed.sound, ?_, fun _ empty ↦ absurd empty (sound within)⟩
    have bytes := handed.bytes
    rw [f.wire_eq_frames, none_pulled, none_pulled] at bytes
    rw [none_pulled, due, busy]
    exact bytes

end Outbound

end Bridge

end Conduit
