import YHAudioLink.Board.PoolConservation

/-!
# Sessions in the trace

A session begins where `is_line_established` goes from 0 to 1. The functions here read sessions off
a trace, newest event first, so that the laws of a session are laws about what was observed:
`lineUp` is the value of the flag, `ups` counts the beginnings, and `line_eq_lineUp` says that the
flag of the machine is the one the trace shows.
-/

namespace YHAudioLink

/-- Whether the line is up after this trace: the last transition was to 1. -/
def lineUp : List Event → Bool
  | [] => false
  | .up :: _ => true
  | .down :: _ => false
  | _ :: tr => lineUp tr

/-- The number of 0→1 transitions. -/
def ups : List Event → ℕ
  | [] => 0
  | .up :: tr => ups tr + 1
  | _ :: tr => ups tr

/-- The number of WAV headers the client has sent. -/
def headers : List Event → ℕ
  | [] => 0
  | .header _ _ :: tr => headers tr + 1
  | _ :: tr => headers tr

/-- Whether the client has sent a header since the last 0→1 transition. -/
def headerSinceUp : List Event → Bool
  | [] => false
  | .up :: _ => false
  | .header _ _ :: _ => true
  | _ :: tr => headerSinceUp tr

@[simp] theorem lineUp_lineEvents (x y : Bool) (tr : List Event) (h : x = lineUp tr) :
    lineUp (lineEvents x y ++ tr) = y := by
  subst h
  rcases hx : lineUp tr with - | - <;> cases y <;> simp [lineEvents, lineUp, hx]

/-- **The flag is the one the trace shows.** -/
theorem line_eq_lineUp {ok : Board → Label → Bool} {s : Board} (h : BoardReachable ok s) :
    s.line = lineUp s.trace := by
  refine h.invariant (?_ : ∀ s : Board, s.Init → s.line = lineUp s.trace) ?_
  · rintro s ⟨data, a, c, rfl⟩
    rfl
  · intro s a t hs _ hst
    cases hst with
    | serverCommand b line => exact (lineUp_lineEvents _ _ _ hs).symm
    | serverPostRec b hpc =>
      dsimp only
      split
      · exact hs
      · exact hs
    | serverDequeue | serverRecvfrom | serverData | serverPostPlay | serverEnqueue | playPend
    | playDequeue | playTake | playPut | playEmpty | playSkip | playInspect | playCopy | playSend
    | playCheck | clientPend | clientReadAddr | clientReadPort | clientHeader | clientBlock
    | clientNoBlock | clientCheck => exact hs

end YHAudioLink
