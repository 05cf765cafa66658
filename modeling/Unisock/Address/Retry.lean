import Unisock.Address.Storage

/-! The retry loops of `socket_address::addrinfo` and `nameinfo`, with the calls of `getaddrinfo` and
`getnameinfo` that they make. -/

namespace Unisock.Address

def EAI_AGAIN : Int := 2

/-- `socket_address::MAX_HOST_RESOLVE_RETRIES`. -/
def MAX_HOST_RESOLVE_RETRIES : Nat := 3

/-- How the retry loop ends: with `return ERROR`, or behind the loop, with `n_retries` and what the
last call has given. -/
inductive Retried (α : Type)
  | error
  | left (nRetries : Int) (res : Option α)
deriving DecidableEq, Repr

/-- The do-while loop of `addrinfo` and `nameinfo`, with `n_retries` before its body, where the call
number `attempt` has the result `results attempt`. -/
def retry {α : Type} (results : Nat → Except Int α) (attempt : Nat) : Nat → Retried α
  | 0 =>
    match results attempt with
    | .ok res => .left 0 (some res)
    | .error err => if err ≠ EAI_AGAIN then .error else .left (-1) none
  | nRetries + 1 =>
    match results attempt with
    | .ok res => .left (nRetries + 1) (some res)
    | .error err =>
      if err ≠ EAI_AGAIN then .error
      else
        match nRetries with
        | 0 => .left 0 none
        | nRetries + 1 => retry results (attempt + 1) (nRetries + 1)

section Loop

variable {α : Type} {results : Nat → Except Int α} {attempt k : Nat}

/-- The next call: the state is the number of the calls before it. -/
def nextResult (results : Nat → Except Int α) : StateM Nat (Except Int α) := fun attempt =>
  (results attempt, attempt + 1)

@[simp] theorem run_nextResult (results : Nat → Except Int α) (attempt : Nat) :
    (nextResult results).run attempt = pure (results attempt, attempt + 1) := rfl

/-- The loop of `retry` as it makes its calls.  `n_retries` is an `int`, and a limit that no `int`
holds does not pass the build, which has `-Werror`. -/
def retryCounted (results : Nat → Except Int α) : Nat → StateM Nat (Retried α)
  | 0 => do
    match ← nextResult results with
    | .ok res => return .left 0 (some res)
    | .error err => if err ≠ EAI_AGAIN then return .error else return .left (-1) none
  | nRetries + 1 => do
    match ← nextResult results with
    | .ok res => return .left (nRetries + 1) (some res)
    | .error err =>
      if err ≠ EAI_AGAIN then return .error
      else if nRetries > 0 then retryCounted results nRetries
      else return .left nRetries none

/-- The number of calls that the loop makes with the limit `limit`. -/
def calls (results : Nat → Except Int α) (limit : Nat) : Nat :=
  ((retryCounted results limit).run 0).2

/-- What the loop leaves if it stops at the result `result`, with `nRetries`. -/
def Retried.of (nRetries : Int) : Except Int α → Retried α
  | .ok res => .left nRetries (some res)
  | .error _ => .error

theorem ne_again {err : Int} (hsettled : results attempt ≠ .error EAI_AGAIN)
    (hresult : results attempt = .error err) : err ≠ EAI_AGAIN := by
  rintro rfl
  exact hsettled hresult

theorem retry_settled (hsettled : results attempt ≠ .error EAI_AGAIN) (nRetries : Nat) :
    retry results attempt nRetries = .of nRetries (results attempt) := by
  rw [retry.eq_def]
  cases hresult : results attempt with
  | ok res => cases nRetries <;> rfl
  | error err =>
    have herr := ne_again hsettled hresult
    cases nRetries <;> simp [herr, Retried.of]

theorem retry_again (hagain : results attempt = .error EAI_AGAIN) (nRetries : Nat) :
    retry results attempt (nRetries + 1) =
      if nRetries > 0 then retry results (attempt + 1) nRetries else .left nRetries none := by
  cases nRetries <;> simp [retry, hagain]

theorem retryCounted_settled (hsettled : results attempt ≠ .error EAI_AGAIN) (nRetries : Nat) :
    (retryCounted results nRetries).run attempt =
      (.of nRetries (results attempt), attempt + 1) := by
  cases hresult : results attempt with
  | ok res => cases nRetries <;> simp [retryCounted, hresult, Retried.of] <;> rfl
  | error err =>
    have herr := ne_again hsettled hresult
    cases nRetries <;> simp [retryCounted, hresult, herr, Retried.of] <;> rfl

theorem retryCounted_again (hagain : results attempt = .error EAI_AGAIN) (nRetries : Nat) :
    (retryCounted results (nRetries + 1)).run attempt =
      if nRetries > 0 then (retryCounted results nRetries).run (attempt + 1)
      else (.left nRetries none, attempt + 1) := by
  simp only [retryCounted, StateT.run_bind, run_nextResult, pure_bind, hagain, ne_eq,
    not_true_eq_false, if_false]
  split <;> rfl

/-- `retry` is this loop without the count. -/
theorem fst_retryCounted (nRetries attempt : Nat) :
    ((retryCounted results nRetries).run attempt).1 = retry results attempt nRetries := by
  induction nRetries generalizing attempt with
  | zero =>
    by_cases hagain : results attempt = .error EAI_AGAIN
    · simp [retryCounted, retry, hagain]
      rfl
    · rw [retryCounted_settled hagain, retry_settled hagain]
  | succ nRetries ih =>
    by_cases hagain : results attempt = .error EAI_AGAIN
    · rw [retryCounted_again hagain, retry_again hagain]
      split
      · exact ih (attempt + 1)
      · rfl
    · rw [retryCounted_settled hagain, retry_settled hagain]

/-- The call number `k` is the first whose result is not `EAI_AGAIN`. -/
structure FirstSettled (results : Nat → Except Int α) (k : Nat) : Prop where
  again : ∀ j < k, results j = .error EAI_AGAIN
  settled : results k ≠ .error EAI_AGAIN

/-- The loop stops with the first result that is not `EAI_AGAIN`, with `n_retries` above zero, also if
the last call that it may make gives it. -/
theorem FirstSettled.retryCounted (h : FirstSettled results k) {nRetries : Nat}
    (hle : attempt ≤ k) (hlt : k < attempt + nRetries) :
    ∃ n : Int, 0 < n ∧
      (Address.retryCounted results nRetries).run attempt = (.of n (results k), k + 1) := by
  induction nRetries generalizing attempt with
  | zero => omega
  | succ nRetries ih =>
    rcases Nat.lt_or_eq_of_le hle with hbefore | rfl
    · have hpos : nRetries > 0 := by omega
      obtain ⟨n, hn, hrest⟩ := ih hbefore (by omega)
      rw [retryCounted_again (h.again attempt hbefore), if_pos hpos]
      exact ⟨n, hn, hrest⟩
    · exact ⟨(nRetries + 1 : Nat), by omega, retryCounted_settled h.settled _⟩

/-- Without such a result the loop makes all its calls and leaves `n_retries` at zero. -/
theorem retryCounted_exhausted {nRetries : Nat}
    (hagain : ∀ j < attempt + nRetries + 1, results j = .error EAI_AGAIN) :
    (retryCounted results (nRetries + 1)).run attempt =
      (.left 0 none, attempt + (nRetries + 1)) := by
  induction nRetries generalizing attempt with
  | zero => rw [retryCounted_again (hagain attempt (by omega))]; rfl
  | succ nRetries ih =>
    rw [retryCounted_again (hagain attempt (by omega)), if_pos (Nat.succ_pos nRetries),
      ih fun j hj => hagain j (by omega), Nat.add_right_comm attempt 1, Nat.add_assoc]

theorem settled_or_exhausted (results : Nat → Except Int α) (limit : Nat) :
    (∃ k < limit, FirstSettled results k) ∨ ∀ k < limit, results k = .error EAI_AGAIN := by
  induction limit with
  | zero => exact .inr fun k hk => absurd hk (Nat.not_lt_zero k)
  | succ limit ih =>
    obtain ⟨k, hk, hfirst⟩ | hagain := ih
    · exact .inl ⟨k, by omega, hfirst⟩
    · by_cases hlast : results limit = .error EAI_AGAIN
      · refine .inr fun k hk => ?_
        obtain hlt | rfl := Nat.lt_succ_iff_lt_or_eq.mp hk
        · exact hagain k hlt
        · exact hlast
      · exact .inl ⟨limit, by omega, hagain, hlast⟩

/-- `outcome` and the number of calls are those of a function that makes at most `limit` calls, stops
at the first result that is not `EAI_AGAIN` and makes `settled` of it, or `exhausted` without one. -/
structure Retries {β : Type} (results : Nat → Except Int α) (limit : Nat) (settled : Except Int α → β)
    (exhausted outcome : β) : Prop where
  bounded : calls results limit ≤ limit
  settles : ∀ k < limit, FirstSettled results k →
    calls results limit = k + 1 ∧ outcome = settled (results k)
  exhausts : (∀ k < limit, results k = .error EAI_AGAIN) →
    calls results limit = limit ∧ outcome = exhausted

variable {limit : Nat}

theorem FirstSettled.retry (h : FirstSettled results k) (hlt : k < limit) :
    calls results limit = k + 1 ∧
      ∃ n : Int, 0 < n ∧ Address.retry results 0 limit = .of n (results k) := by
  obtain ⟨n, hn, hrun⟩ := h.retryCounted (Nat.zero_le k) (by rwa [Nat.zero_add])
  rw [calls, ← fst_retryCounted, hrun]
  exact ⟨rfl, n, hn, rfl⟩

theorem retry_exhausted (hlimit : 1 ≤ limit)
    (hagain : ∀ k < limit, results k = .error EAI_AGAIN) :
    calls results limit = limit ∧ retry results 0 limit = .left 0 none := by
  obtain ⟨last, rfl⟩ := Nat.exists_eq_add_of_le' hlimit
  have hrun : (retryCounted results (last + 1)).run 0 = (.left 0 none, 0 + (last + 1)) :=
    retryCounted_exhausted fun j hj => hagain j (by omega)
  rw [calls, ← fst_retryCounted, hrun]
  exact ⟨Nat.zero_add _, rfl⟩

theorem calls_le (results : Nat → Except Int α) (hlimit : 1 ≤ limit) :
    calls results limit ≤ limit := by
  obtain ⟨k, hk, hfirst⟩ | hagain := settled_or_exhausted results limit
  · rw [(hfirst.retry hk).1]
    exact hk
  · exact (retry_exhausted hlimit hagain).1.le

/-- What is to show of a function behind the loop. -/
theorem Retries.of_retry {β : Type} {settled : Except Int α → β} {exhausted outcome : β}
    (hlimit : 1 ≤ limit)
    (hsettled : ∀ (n : Int) (k : Nat), 0 < n → retry results 0 limit = .of n (results k) →
      outcome = settled (results k))
    (hexhausted : retry results 0 limit = .left 0 none → outcome = exhausted) :
    Retries results limit settled exhausted outcome where
  bounded := calls_le results hlimit
  settles k hk hfirst := by
    obtain ⟨hcalls, n, hn, hretry⟩ := hfirst.retry hk
    exact ⟨hcalls, hsettled n k hn hretry⟩
  exhausts hagain := by
    obtain ⟨hcalls, hretry⟩ := retry_exhausted hlimit hagain
    exact ⟨hcalls, hexhausted hretry⟩

end Loop

/-- `addrinfo_result`. -/
inductive AddrinfoResult
  | success
  | error
  | unavailable
  | addressTooBig
deriving DecidableEq, Repr

/-- `nameinfo_result`. -/
inductive NameinfoResult
  | success
  | error
  | unavailable
  | nameTooBig
deriving DecidableEq, Repr

/-- `socket_address::addrinfo` with the limit `retries`, and the address that it leaves.  A result of
`getaddrinfo` is an error or the `ai_addr` of the list, of `ai_addrlen` bytes each; the empty list is
`nullptr`. -/
def addrinfoWith (retries : Nat) (results : Nat → Except Int (List (List UInt8)))
    (address : SocketAddress) : AddrinfoResult × SocketAddress :=
  match retry results 0 retries with
  | .error => (.error, address)
  | .left nRetries res =>
    match res.getD [] with
    | [] => (.unavailable, address)
    | aiAddr :: _ =>
      if nRetries = 0 then (.unavailable, address)
      else if aiAddr.length > 128 then (.addressTooBig, address)
      else (.success, address.copy aiAddr)

def addrinfo (results : Nat → Except Int (List (List UInt8))) (address : SocketAddress) :
    AddrinfoResult × SocketAddress :=
  addrinfoWith MAX_HOST_RESOLVE_RETRIES results address

/-- `socket_address::nameinfo` with the limit `retries`, and the hostname that it leaves.  A result of
`getnameinfo` is an error or what it has put into `hostname_buffer`. -/
def nameinfoWith (retries : Nat) (results : Nat → Except Int String) (hostname : String) :
    NameinfoResult × String :=
  match retry results 0 retries with
  | .error => (.error, hostname)
  | .left nRetries buffer =>
    if nRetries = 0 || (buffer.getD "").isEmpty then (.unavailable, hostname)
    else (.success, buffer.getD "")

def nameinfo (results : Nat → Except Int String) (hostname : String) : NameinfoResult × String :=
  nameinfoWith MAX_HOST_RESOLVE_RETRIES results hostname

/-! ### What the two functions make of the results -/

/-- `addrinfo` for the result it stops at, and the address that it leaves. -/
def settledAddress (address : SocketAddress) :
    Except Int (List (List UInt8)) → AddrinfoResult × SocketAddress
  | .error _ => (.error, address)
  | .ok [] => (.unavailable, address)
  | .ok (aiAddr :: _) =>
    if aiAddr.length ≤ 128 then (.success, address.copy aiAddr) else (.addressTooBig, address)

/-- `nameinfo` for the result it stops at, and the hostname that it leaves. -/
def settledName (hostname : String) : Except Int String → NameinfoResult × String
  | .error _ => (.error, hostname)
  | .ok name => if name.isEmpty then (.unavailable, hostname) else (.success, name)

section Resolvers

variable {limit : Nat}

theorem addrinfoWith_retries (hlimit : 1 ≤ limit) (results : Nat → Except Int (List (List UInt8)))
    (address : SocketAddress) :
    Retries results limit (settledAddress address) (.unavailable, address)
      (addrinfoWith limit results address) := by
  refine .of_retry hlimit (fun n k hn hretry => ?_) fun hretry => by simp [addrinfoWith, hretry]
  rw [addrinfoWith, hretry]
  match results k with
  | .error _ => rfl
  | .ok [] => rfl
  | .ok (aiAddr :: _) =>
    by_cases hfits : aiAddr.length ≤ 128
    · simp [Retried.of, settledAddress, hn.ne', hfits]
    · simp [Retried.of, settledAddress, hn.ne', hfits]

theorem nameinfoWith_retries (hlimit : 1 ≤ limit) (results : Nat → Except Int String)
    (hostname : String) :
    Retries results limit (settledName hostname) (.unavailable, hostname)
      (nameinfoWith limit results hostname) := by
  refine .of_retry hlimit (fun n k hn hretry => ?_) fun hretry => by simp [nameinfoWith, hretry]
  rw [nameinfoWith, hretry]
  cases results k with
  | error err => rfl
  | ok name => simp [Retried.of, settledName, hn.ne']

theorem addrinfoWith_untouched (results : Nat → Except Int (List (List UInt8)))
    (address : SocketAddress) : (addrinfoWith limit results address).1 = .success ∨
      (addrinfoWith limit results address).2 = address := by
  unfold addrinfoWith
  cases retry results 0 limit with
  | error => exact .inr rfl
  | left nRetries res =>
    cases hlist : res.getD [] with
    | nil => simp only [hlist, or_true]
    | cons aiAddr more =>
      simp only [hlist]
      split
      · exact .inr rfl
      · split
        · exact .inr rfl
        · exact .inl rfl

theorem nameinfoWith_untouched (results : Nat → Except Int String) (hostname : String) :
    (nameinfoWith limit results hostname).1 = .success ∨
      (nameinfoWith limit results hostname).2 = hostname := by
  unfold nameinfoWith
  cases retry results 0 limit with
  | error => exact .inr rfl
  | left nRetries buffer =>
    simp only
    split
    · exact .inr rfl
    · exact .inl rfl

end Resolvers

/-- For every limit and all results: `addrinfo` and `nameinfo` make at most as many calls, stop at
the first result that is not `EAI_AGAIN` and report what it says, and `UNAVAILABLE` without one; they
write to the address and to the hostname only on success. -/
theorem resolvers_retry (limit : Nat) (hlimit : 1 ≤ limit) :
    (∀ (results : Nat → Except Int (List (List UInt8))) (address : SocketAddress),
      Retries results limit (settledAddress address) (.unavailable, address)
        (addrinfoWith limit results address) ∧
      ((addrinfoWith limit results address).1 ≠ .success →
        (addrinfoWith limit results address).2 = address)) ∧
    ∀ (results : Nat → Except Int String) (hostname : String),
      Retries results limit (settledName hostname) (.unavailable, hostname)
        (nameinfoWith limit results hostname) ∧
      ((nameinfoWith limit results hostname).1 ≠ .success →
        (nameinfoWith limit results hostname).2 = hostname) :=
  ⟨fun results address =>
    ⟨addrinfoWith_retries hlimit results address,
      (addrinfoWith_untouched results address).resolve_left⟩,
    fun results hostname =>
      ⟨nameinfoWith_retries hlimit results hostname,
        (nameinfoWith_untouched results hostname).resolve_left⟩⟩

/-- A success on the last of three calls is reported. -/
theorem resolvers_retry_last :
    1 ≤ MAX_HOST_RESOLVE_RETRIES ∧
      calls (fun attempt => if attempt < 2 then .error EAI_AGAIN else .ok "localhost")
        MAX_HOST_RESOLVE_RETRIES = 3 ∧
      nameinfo (fun attempt => if attempt < 2 then .error EAI_AGAIN else .ok "localhost") "" =
        (.success, "localhost") := by
  have hretries := ((resolvers_retry MAX_HOST_RESOLVE_RETRIES (by decide)).2
    (fun attempt => if attempt < 2 then .error EAI_AGAIN else .ok "localhost") "").1
  exact ⟨by decide, hretries.settles 2 (by decide) ⟨fun j hj => if_pos hj, by decide⟩⟩

end Unisock.Address
