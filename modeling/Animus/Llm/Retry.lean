import Animus.Lib.Effect
import Animus.Llm.OpenAi
import Mathlib.Data.Nat.Find
import Mathlib.Order.Basic

/-!
# The rate-limit retry loop

`complete` sends the request until the answer is not 429 or the retries are used
up, and waits between two requests. What it waits without a `retry-after` header
is a power of two in 64 bits, which the 65th retry does not fit.

## Main definitions

- `complete`: the one-shot call
- `Exchange`: what a run of it does to the outside
- `Retries`: a run of `complete` as it is meant to be

## Main results

- `loopFrom_advance`: the loop up to a retry
- `retries_iff`: when the call runs as it is meant to
- `complete_overflows`: what the 65th retry does instead
-/

namespace Animus

open Effect

/-- The effects of `complete`. -/
inductive HttpEff : Type → Type
  /-- Send the request. -/
  | post : HttpEff (Except String HttpResponse)
  | sleep (secs : UInt64) : HttpEff Unit

/-- `status == TOO_MANY_REQUESTS`. -/
def HttpResponse.isRateLimited (resp : HttpResponse) : Bool := resp.status = 429

/-- The `retry-after` header as a number of seconds. -/
def HttpResponse.retryAfterSecs (resp : HttpResponse) : Option UInt64 :=
  resp.retryAfter.bind parseU64

/-- `2u64.pow(retries)`; an overflow panics in a build that checks for it, and wraps in another. -/
def pow2 (checked : Bool) (retries : UInt32) : Option UInt64 :=
  if checked && decide (2 ^ 64 ≤ 2 ^ retries.toNat) then none
  else some (.ofNat (2 ^ retries.toNat))

section Complete

variable (fromStr : FromStr) (json : HttpResponse → Except String Json) (checked : Bool)

/-- What `complete` makes of a response that is not rate limited; `json` is what the HTTP library
reads from the body. -/
def readResponse (resp : HttpResponse) : Except LlmError CompletionResponse :=
  if resp.isSuccess = false then .error (.api resp.status (resp.text.toOption.getD ""))
  else match json resp with
    | .error e => .error (.http e)
    | .ok body => parseResponseBody fromStr body

/-- The loop of `complete`; without a result it panicked. -/
def completeLoop (maxRetries retries : UInt32) :
    Prog HttpEff (Option (Except LlmError CompletionResponse)) :=
  .eff .post fun sent => match sent with
    | .error e => .ret (some (.error (.http e)))
    | .ok resp =>
      if resp.isRateLimited then
        if maxRetries ≤ retries then .ret (some (.error (.rateLimited resp.retryAfterSecs)))
        else
          -- the power is computed whether or not there is a header
          match pow2 checked retries with
          | none => .ret none
          | some backoff => .eff (.sleep (resp.retryAfterSecs.getD backoff)) fun _ =>
            completeLoop maxRetries (retries + 1)
      else .ret (some (readResponse fromStr json resp))
termination_by maxRetries.toNat - retries.toNat
decreasing_by
  have hlt : retries < maxRetries := UInt32.not_le.mp ‹_›
  have hnat := UInt32.lt_iff_toNat_lt.mp hlt
  have hmax := maxRetries.toNat_lt
  rw [UInt32.toNat_add, UInt32.toNat_one, Nat.mod_eq_of_lt (by omega)]
  omega

/-- Send a completion request and return the full response. -/
def complete (maxRetries : UInt32) : Prog HttpEff (Option (Except LlmError CompletionResponse)) :=
  completeLoop fromStr json checked maxRetries 0

end Complete

/-- What a run does to the outside. -/
inductive Exchange
  | posted
  | slept (secs : ℕ)
  deriving DecidableEq

/-- The requests sent so far. -/
def posts (log : List Exchange) : ℕ := log.count .posted

/-- Answer an effect: request number `n`, from 0, gets reply number `n`. -/
def exchange (replies : ℕ → Except String HttpResponse) :
    {β : Type} → HttpEff β → Unit → List Exchange → β × List Exchange
  | _, .post, _, log => (replies (posts log), log ++ [.posted])
  | _, .sleep secs, _, log => ((), log ++ [.slept secs.toNat])

section Run

variable (fromStr : FromStr) (json : HttpResponse → Except String Json) (checked : Bool)
  (maxRetries : UInt32) (responses : ℕ → HttpResponse)

/-- A run of `complete`, alone with a transport that does not fail: how it ends and what it did. -/
def completeRun : Option (Except LlmError CompletionResponse) × List Exchange :=
  (complete fromStr json checked maxRetries).interp (exchange fun n => .ok (responses n))
    (fun _ => ()) []

/-- What `complete` is meant to wait after response number `r`. -/
def backoff (r : ℕ) : ℕ := (responses r).retryAfterSecs.elim (2 ^ r) UInt64.toNat

/-- The first `r` requests, each of them answered with 429, and the waits between them. -/
def retried (r : ℕ) : List Exchange :=
  (List.range r).flatMap fun k => [.posted, .slept (backoff responses k)]

/-- `complete` returns after response number `n`: it is the first that is not 429, or the last one
allowed. -/
structure Retries (n : ℕ) : Prop where
  allowed : n ≤ maxRetries.toNat
  limited : ∀ k < n, (responses k).isRateLimited = true
  stops : n = maxRetries.toNat ∨ (responses n).isRateLimited = false
  fits : ∀ r < n, 2 ^ r < 2 ^ 64
  result : (completeRun fromStr json checked maxRetries responses).1 = some
    (if (responses n).isRateLimited then .error (.rateLimited (responses n).retryAfterSecs)
      else readResponse fromStr json (responses n))
  log : (completeRun fromStr json checked maxRetries responses).2 =
    retried responses n ++ [.posted]

end Run

section Loop

variable {fromStr : FromStr} {json : HttpResponse → Except String Json} {checked : Bool}
  {maxRetries : UInt32} {responses : ℕ → HttpResponse}

theorem retried_succ (r : ℕ) : retried responses (r + 1) =
    retried responses r ++ [.posted, .slept (backoff responses r)] := by
  rw [retried, List.range_succ, List.flatMap_append, List.flatMap_singleton, ← retried]

theorem posts_retried (r : ℕ) : posts (retried responses r) = r := by
  induction r with
  | zero => rfl
  | succ r ih =>
    rw [retried_succ, posts, List.count_append, ← posts, ih]
    rfl

theorem pow2_of_lt {retries : UInt32} (h : 2 ^ retries.toNat < 2 ^ 64) :
    pow2 checked retries = some (.ofNat (2 ^ retries.toNat)) := by
  rw [pow2, decide_eq_false (Nat.not_le.mpr h), Bool.and_false]
  rfl

/-- What the loop waits is what it is meant to wait, where the power fits. -/
theorem toNat_getD_backoff {r : ℕ} (h : 2 ^ r < 2 ^ 64) :
    ((responses r).retryAfterSecs.getD (.ofNat (2 ^ r))).toNat = backoff responses r := by
  unfold backoff
  cases (responses r).retryAfterSecs with
  | none => exact UInt64.toNat_ofNat_of_lt' h
  | some secs => rfl

/-- From retry number `r` on, after the requests before it. -/
def loopFrom (fromStr : FromStr) (json : HttpResponse → Except String Json) (checked : Bool)
    (maxRetries : UInt32) (responses : ℕ → HttpResponse) (r : ℕ) :
    Option (Except LlmError CompletionResponse) × List Exchange :=
  (completeLoop fromStr json checked maxRetries (.ofNat r)).interp
    (exchange fun n => .ok (responses n)) (fun _ => ()) (retried responses r)

/-- One turn of the loop. -/
theorem loopFrom_turn {r : ℕ} (hr : r ≤ maxRetries.toNat) :
    loopFrom fromStr json checked maxRetries responses r =
      if (responses r).isRateLimited then
        if r = maxRetries.toNat then
          (some (.error (.rateLimited (responses r).retryAfterSecs)),
            retried responses r ++ [.posted])
        else match pow2 checked (.ofNat r) with
          | none => (none, retried responses r ++ [.posted])
          | some b => (completeLoop fromStr json checked maxRetries (.ofNat (r + 1))).interp
              (exchange fun n => .ok (responses n)) (fun _ => ())
              (retried responses r ++
                [.posted, .slept ((responses r).retryAfterSecs.getD b).toNat])
      else (some (readResponse fromStr json (responses r)), retried responses r ++ [.posted]) := by
  have hr32 : r < UInt32.size := hr.trans_lt maxRetries.toNat_lt
  have hle : maxRetries ≤ .ofNat r ↔ r = maxRetries.toNat := by
    rw [UInt32.le_iff_toNat_le, UInt32.toNat_ofNat_of_lt' hr32]
    omega
  have hsent : (exchange (fun n => .ok (responses n)) .post () (retried responses r)) =
      (.ok (responses r), retried responses r ++ [.posted]) := by
    rw [exchange, posts_retried]
  rw [loopFrom, completeLoop, Prog.interp, hsent]
  simp only [hle]
  by_cases hlim : (responses r).isRateLimited = true
  · rw [if_pos hlim, if_pos hlim]
    by_cases hlast : r = maxRetries.toNat
    · rw [if_pos hlast, if_pos hlast]
      rfl
    -- the power is computed before the header is looked at
    · rw [if_neg hlast, if_neg hlast]
      cases pow2 checked (.ofNat r) with
      | none => rfl
      | some b =>
        rw [UInt32.ofNat_add]
        simp only [Prog.interp, exchange, List.append_assoc]
        rfl
  · rw [if_neg hlim, if_neg hlim]
    rfl

/-- A first response that is a success is the last one. -/
theorem completeRun_of_isSuccess (h : (responses 0).isSuccess = true) :
    (completeRun fromStr json checked maxRetries responses).1 =
      some (readResponse fromStr json (responses 0)) := by
  have hlim : (responses 0).isRateLimited = false :=
    decide_eq_false (HttpResponse.status_ne_of_isSuccess h)
  have hturn : completeRun fromStr json checked maxRetries responses = _ :=
    loopFrom_turn (Nat.zero_le _)
  rw [hturn, if_neg (by rw [hlim]; exact Bool.false_ne_true)]

/-- The loop up to retry number `n`, where all powers before it fit. -/
theorem loopFrom_advance {n : ℕ} (hn : n ≤ maxRetries.toNat)
    (hlim : ∀ k < n, (responses k).isRateLimited = true) (hfit : ∀ k < n, 2 ^ k < 2 ^ 64) :
    completeRun fromStr json checked maxRetries responses =
      loopFrom fromStr json checked maxRetries responses n := by
  induction n with
  | zero => rfl
  | succ n ih =>
    have hlt : n < maxRetries.toNat := hn
    have hn32 : n < UInt32.size := hlt.trans maxRetries.toNat_lt
    have hpow : pow2 checked (.ofNat n) = some (.ofNat (2 ^ n)) := by
      have hnat : (UInt32.ofNat n).toNat = n := UInt32.toNat_ofNat_of_lt' hn32
      rw [pow2_of_lt (by rw [hnat]; exact hfit n n.lt_succ_self), hnat]
    rw [ih hlt.le (fun k hk => hlim k (hk.trans n.lt_succ_self))
      (fun k hk => hfit k (hk.trans n.lt_succ_self)), loopFrom_turn hlt.le,
      if_pos (hlim n n.lt_succ_self), if_neg hlt.ne, hpow, loopFrom, retried_succ]
    simp only [toNat_getD_backoff (hfit n n.lt_succ_self)]

/-- A run only adds to what was done before. -/
theorem log_grows (replies : ℕ → Except String HttpResponse) {α : Type} (p : Prog HttpEff α)
    (log : List Exchange) :
    ∃ rest, (p.interp (exchange replies) (fun _ => ()) log).2 = log ++ rest := by
  induction p generalizing log with
  | ret a => exact ⟨[], (List.append_nil log).symm⟩
  | eff e k ih =>
    cases e with
    | post =>
      obtain ⟨rest, hrest⟩ := ih _ (log ++ [.posted])
      exact ⟨_, hrest.trans (List.append_assoc ..)⟩
    | sleep secs =>
      obtain ⟨rest, hrest⟩ := ih _ (log ++ [.slept secs.toNat])
      exact ⟨_, hrest.trans (List.append_assoc ..)⟩

/-- Some response is the last one `complete` is meant to read. -/
theorem exists_last (maxRetries : UInt32) (responses : ℕ → HttpResponse) :
    ∃ n ≤ maxRetries.toNat, (∀ k < n, (responses k).isRateLimited = true) ∧
      (n = maxRetries.toNat ∨ (responses n).isRateLimited = false) := by
  by_cases hex : ∃ n ≤ maxRetries.toNat, (responses n).isRateLimited = false
  · obtain ⟨hle, hstop⟩ := Nat.find_spec hex
    refine ⟨Nat.find hex, hle, fun k hk => ?_, .inr hstop⟩
    have hnot := Nat.find_min hex hk
    rw [not_and, Bool.not_eq_false] at hnot
    exact hnot (hk.le.trans hle)
  · push Not at hex
    exact ⟨maxRetries.toNat, le_rfl, fun k hk => (Bool.not_eq_false _).mp (hex k hk.le), .inl rfl⟩

/-- `complete` runs as it is meant to exactly when its retries do not go past number 63: at most 64
are allowed, or one of the first 65 responses is not 429. -/
theorem retries_iff (fromStr : FromStr) (json : HttpResponse → Except String Json) (checked : Bool)
    (maxRetries : UInt32) (responses : ℕ → HttpResponse) :
    (∃ n, Retries fromStr json checked maxRetries responses n) ↔
      maxRetries.toNat ≤ 64 ∨ ∃ k ≤ 64, (responses k).isRateLimited = false := by
  constructor
  · rintro ⟨n, hrun⟩
    -- a run past retry number 64 has computed 2 ^ 64
    have hn : n ≤ 64 := by
      by_contra hlt
      exact absurd (hrun.fits 64 (Nat.not_le.mp hlt)) (lt_irrefl _)
    obtain rfl | hstop := hrun.stops
    · exact .inl hn
    · exact .inr ⟨n, hn, hstop⟩
  · intro hcond
    obtain ⟨n, hle, hlim, hstops⟩ := exists_last maxRetries responses
    have hn : n ≤ 64 := by
      obtain hmax | ⟨k, hk, hfree⟩ := hcond
      · exact hle.trans hmax
      · by_contra hlt
        rw [hlim k (hk.trans_lt (Nat.not_le.mp hlt))] at hfree
        cases hfree
    have hfit : ∀ r < n, 2 ^ r < 2 ^ 64 := fun r hr =>
      Nat.pow_lt_pow_right Nat.one_lt_two (hr.trans_le hn)
    have hrun : completeRun fromStr json checked maxRetries responses = (some
        (if (responses n).isRateLimited then .error (.rateLimited (responses n).retryAfterSecs)
          else readResponse fromStr json (responses n)), retried responses n ++ [.posted]) := by
      rw [loopFrom_advance hle hlim hfit, loopFrom_turn hle]
      obtain rfl | hfree := hstops
      · rw [if_pos rfl]
        split <;> rfl
      · rw [hfree, if_neg Bool.false_ne_true, if_neg Bool.false_ne_true]
    exact ⟨n, hle, hlim, hstops, hfit, congrArg Prod.fst hrun, congrArg Prod.snd hrun⟩

/-- The 65th retry overflows: a build that checks panics after 65 requests, and one that does not
goes on after what the header says, or at once. -/
theorem complete_overflows (h64 : 64 < maxRetries.toNat)
    (hlim : ∀ k ≤ 64, (responses k).isRateLimited = true) :
    completeRun fromStr json true maxRetries responses =
      (none, retried responses 64 ++ [.posted]) ∧
    ∃ rest, (completeRun fromStr json false maxRetries responses).2 = retried responses 64 ++
      .posted :: .slept ((responses 64).retryAfterSecs.elim 0 UInt64.toNat) :: rest := by
  have hfit : ∀ k < 64, 2 ^ k < 2 ^ 64 := fun k hk => Nat.pow_lt_pow_right Nat.one_lt_two hk
  have hturn : ∀ checked, completeRun fromStr json checked maxRetries responses = _ :=
    fun checked => (loopFrom_advance h64.le (fun k hk => hlim k hk.le) hfit).trans
      (loopFrom_turn h64.le)
  constructor
  · rw [hturn, if_pos (hlim 64 le_rfl), if_neg h64.ne]
    rfl
  · rw [hturn, if_pos (hlim 64 le_rfl), if_neg h64.ne]
    -- unchecked, the power wraps to 0, and the loop goes on
    have hpow : pow2 false (.ofNat 64) = some 0 := rfl
    rw [hpow]
    obtain ⟨rest, hrest⟩ := log_grows (fun n => .ok (responses n))
      (completeLoop fromStr json false maxRetries (.ofNat (64 + 1)))
      (retried responses 64 ++ [.posted, .slept ((responses 64).retryAfterSecs.getD 0).toNat])
    refine ⟨rest, hrest.trans ?_⟩
    have hsecs : ((responses 64).retryAfterSecs.getD 0).toNat =
        (responses 64).retryAfterSecs.elim 0 UInt64.toNat := by
      cases (responses 64).retryAfterSecs <;> rfl
    rw [hsecs, List.append_assoc]
    rfl

end Loop

/-- A 429 that asks for no wait. -/
def limitedResponse : HttpResponse := { status := 429, retryAfter := some "0" }

/-- With 65 retries allowed, 66 such responses do not lead to a run as it is meant to be. -/
theorem limited_not_retries (checked : Bool) : ¬ ∃ n, Retries (fun _ => .error "")
    (fun _ => .error "") checked 65 (fun _ => limitedResponse) n := by
  rintro ⟨n, hrun⟩
  have hn : n = 65 := hrun.stops.resolve_right fun hfree => by cases hfree
  exact absurd (hrun.fits 64 (by omega)) (lt_irrefl _)

/-- One build panics before the 65th retry, after waits of no time, and the other computes a power
that does not fit. -/
theorem retry_overflows :
    completeRun (fun _ => .error "") (fun _ => .error "") true 65 (fun _ => limitedResponse) =
      (none, retried (fun _ => limitedResponse) 64 ++ [.posted]) ∧
    (∀ k, backoff (fun _ => limitedResponse) k = 0) ∧
    (¬ ∀ fromStr json maxRetries responses, ∃ n, Retries fromStr json true maxRetries responses n) ∧
    ¬ ∀ fromStr json maxRetries responses, ∃ n, Retries fromStr json false maxRetries responses n :=
  ⟨(complete_overflows (by decide) fun _ _ => rfl).1, fun _ => rfl,
    fun h => limited_not_retries true (h _ _ 65 _), fun h => limited_not_retries false (h _ _ 65 _)⟩

end Animus
