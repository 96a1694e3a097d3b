import FinSight.Counters.Expiring
import FinSight.Db.Schema

/-!
# The rate limiter (`src/middleware/rateLimit.js`)

`withTimeout(incrementCounter(...))` is an answer of the counters: the count in time, or none where Redis failed or
was late. Clocks are in milliseconds.

* `counterKey`, `respond` : the counter of a request, and what `rateLimitMiddleware` makes of its count;
* `run` : a run of requests, each with its `next()` or its error.
-/

namespace FinSight

open Counters

/-- The options of `rateLimit`. -/
structure RateLimiter where
  name : Text
  limit : Nat
  windowSec : Nat
  windowSec_pos : 0 < windowSec

/-- The error of a request that is not let through, and its `Retry-After`. -/
structure RateLimited where
  error : AppError
  retryAfter : Text
  deriving DecidableEq

namespace RateLimiter

variable (l : RateLimiter)

def nowSec (now : Int) : Int := now / 1000

def window (now : Int) : Int := nowSec now / l.windowSec

/-- `rl:${name}:${key}:${window}`; a request is its `key(req)`. -/
def counterKey (c : Call Text) : Text :=
  text "rl:" ++ l.name ++ text ":" ++ c.request ++ text ":" ++ decimalInt (l.window c.now)

/-- The TTL of a counter. -/
def ttl : Int := l.windowSec * 1000

/-- The error of a request; none where it is let through. -/
def respond (now : Int) : Option Nat → Option RateLimited
  | none => none
  | some count =>
      if l.limit < count then
        some
          { error := ⟨text "Too many requests, please retry later", 429, text "RATE_LIMITED"⟩
            retryAfter := decimalInt ((l.window now + 1) * l.windowSec - nowSec now) }
      else none

def run (cs : List (Call Text)) : List (Call Text × Option RateLimited) :=
  outcomes l.counterKey l.ttl (fun c => l.respond c.now) cs

end RateLimiter

end FinSight
