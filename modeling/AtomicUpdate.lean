import AtomicUpdate.Contents
import AtomicUpdate.Fs.Listing
import AtomicUpdate.Fs.Removal
import AtomicUpdate.Handle.Cycle
import AtomicUpdate.Handle.Deletion
import AtomicUpdate.Handle.Snapshot
import AtomicUpdate.Locking
import AtomicUpdate.Policy.Logged
import AtomicUpdate.Proofs.Commit.Outcome
import AtomicUpdate.Proofs.Handle.Outcome
import AtomicUpdate.Proofs.Naming
import AtomicUpdate.Proofs.Path.Split
import AtomicUpdate.Proofs.Path.Folder
import AtomicUpdate.Proofs.Handle.Phases
import AtomicUpdate.Proofs.Fs.Entry
import AtomicUpdate.Proofs.Fs.Keeps
import AtomicUpdate.Proofs.Fs.Walk
import AtomicUpdate.Proofs.Fs.Home
import AtomicUpdate.Proofs.Fs.Change
import AtomicUpdate.Proofs.Fs.Canonical
import AtomicUpdate.Proofs.Fs.Resolved
import AtomicUpdate.Proofs.Fs.Effects
import AtomicUpdate.Proofs.Fs.Calls
import AtomicUpdate.Proofs.Fs.Refused
import AtomicUpdate.Proofs.Fs.Route
import AtomicUpdate.Proofs.Lock.Table
import AtomicUpdate.Proofs.Lock.Polling
import AtomicUpdate.Proofs.Lock.Ledger
import AtomicUpdate.Proofs.Lock.Sidecar
import AtomicUpdate.Proofs.Lock.Conduct
import AtomicUpdate.Proofs.Lock.Contest
import AtomicUpdate.Proofs.Lock.Exclusion
import AtomicUpdate.Proofs.Commit
import AtomicUpdate.Proofs.Store.Ground
import AtomicUpdate.Proofs.Store.Start
import AtomicUpdate.Proofs.Store.Finish
import AtomicUpdate.Proofs.Store.Undo
import AtomicUpdate.Proofs.Store.Read
import AtomicUpdate.Proofs.Store.Abstract
import AtomicUpdate.Proofs.Store.Sound
import AtomicUpdate.Proofs.Store.Refinement
import AtomicUpdate.Proofs.Fs.Upright
import AtomicUpdate.Proofs.Fs.Recede
import AtomicUpdate.Proofs.Fs.Gain
import AtomicUpdate.Proofs.Handle.Creation
import AtomicUpdate.Proofs.Handle.Failure
import AtomicUpdate.Proofs.Handle.Begin
import AtomicUpdate.Proofs.Snapshot.Shelter
import AtomicUpdate.Proofs.Snapshot.Cycle
import AtomicUpdate.Proofs.Snapshot.Ending
import AtomicUpdate.Proofs.Snapshot.Stream
import AtomicUpdate.Proofs.Snapshot.Session
import AtomicUpdate.Proofs.Snapshot.Scene
import AtomicUpdate.Proofs.Snapshot.Isolation
import AtomicUpdate.Proofs.Table
import AtomicUpdate.Proofs.Staged.Intact
import AtomicUpdate.Proofs.Staged.Spill
import AtomicUpdate.Proofs.Staged.Feed
import AtomicUpdate.Proofs.Staged.Ending
import AtomicUpdate.Proofs.Staged.Bench
import AtomicUpdate.Proofs.Staged.Holding
import AtomicUpdate.Proofs.Staged.Promise
import AtomicUpdate.Proofs.Staged.Beside
import AtomicUpdate.Proofs.Staged.Settled
import AtomicUpdate.Proofs.Fs.Age
import AtomicUpdate.Proofs.Staged.Aging
import AtomicUpdate.Proofs.Staged.Final
import AtomicUpdate.Proofs.Staged.Course
import AtomicUpdate.Proofs.Staged.Orphans
import AtomicUpdate.Proofs.Fs.Likeness
import AtomicUpdate.Proofs.Fs.Reopened
import AtomicUpdate.Proofs.Handle.Reading
import AtomicUpdate.Proofs.Handle.Retired
import AtomicUpdate.Proofs.Handle.Journal
import AtomicUpdate.Proofs.Fs.Sibling
import AtomicUpdate.Proofs.Handle.Deletion
import AtomicUpdate.Proofs.Lock.Respite
import AtomicUpdate.Proofs.Lock.Untouched
import AtomicUpdate.Proofs.Fs.Blind
import AtomicUpdate.Proofs.Commit.Fallback
import AtomicUpdate.Proofs.Commit.Agreement
import AtomicUpdate.Proofs.Staged.RoundTrip
import AtomicUpdate.Proofs.Commit.Pairing
import AtomicUpdate.Proofs.Commit.Survival
import AtomicUpdate.Proofs.Handle.Admission
import AtomicUpdate.Proofs.Handle.Attempts
import AtomicUpdate.Proofs.Handle.Untold
import AtomicUpdate.Proofs.Handle.Report
import AtomicUpdate.Proofs.Handle.StreamReport
import AtomicUpdate.Proofs.Fs.Straight
import AtomicUpdate.Proofs.Handle.Entrances
import AtomicUpdate.Proofs.Json.Grammar
import AtomicUpdate.Proofs.Json.Literals
import AtomicUpdate.Proofs.Json.Reading
import AtomicUpdate.Proofs.Policy.Overlay
import AtomicUpdate.Proofs.Json.Integers
import AtomicUpdate.Proofs.Policy.Canonical
import AtomicUpdate.Proofs.Policy.Place
import AtomicUpdate.Proofs.Policy.Forms
import AtomicUpdate.Proofs.Json.Gap
import AtomicUpdate.Proofs.Policy.Timeout
import AtomicUpdate.Proofs.Lock.Patience
import AtomicUpdate.Proofs.Lock.Conversion
import AtomicUpdate.Proofs.Fact
import AtomicUpdate.Proofs.Unique
import AtomicUpdate.Proofs.Sized
import AtomicUpdate.Proofs.Fs.Denotation
import AtomicUpdate.Proofs.Handle.Folder
