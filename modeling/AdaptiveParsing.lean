import AdaptiveParsing.Forest.Render
import AdaptiveParsing.Recognition.Interpreter
import AdaptiveParsing.Completion.Candidates
import AdaptiveParsing.Lookahead.ConfigSet.Canonical
import AdaptiveParsing.Proofs.Lookahead.Transparency
import AdaptiveParsing.Proofs.Lookahead.Store
import AdaptiveParsing.Proofs.Recognition.Soundness
import AdaptiveParsing.Proofs.Lookahead.Bound
import AdaptiveParsing.Proofs.Lookahead.Walks
import AdaptiveParsing.Proofs.Lookahead.Settling
import AdaptiveParsing.Proofs.Network.Closing
import AdaptiveParsing.Proofs.Network.Language
import AdaptiveParsing.Proofs.Network.Following
import AdaptiveParsing.Proofs.Lookahead.InContext
import AdaptiveParsing.Proofs.Lookahead.Agreement
import AdaptiveParsing.Proofs.Recognition.Places
import AdaptiveParsing.Proofs.Lookahead.FirstToken
import AdaptiveParsing.Proofs.Recognition.Turns
import AdaptiveParsing.Proofs.Recognition.Woven
import AdaptiveParsing.Proofs.Recognition.Yield
import AdaptiveParsing.Proofs.Recognition.Cache
import AdaptiveParsing.Proofs.Recognition.Damage
import AdaptiveParsing.Proofs.Recognition.Policies
import AdaptiveParsing.Proofs.Recognition.Bail
import AdaptiveParsing.Proofs.Recognition.TwoStage
import AdaptiveParsing.Proofs.Completion.Exactness
import AdaptiveParsing.Proofs.Completion.Finishing
import AdaptiveParsing.Proofs.Completion.Ignoring
import AdaptiveParsing.Proofs.Completion.Merging
import AdaptiveParsing.Proofs.Completion.Preferring
import AdaptiveParsing.Proofs.Recognition.Resetting
import AdaptiveParsing.Proofs.Recognition.Mirrored
import AdaptiveParsing.Proofs.Recognition.HiddenTokens
import AdaptiveParsing.Proofs.Recognition.Expressions
import AdaptiveParsing.Proofs.Recognition.Rooted
import AdaptiveParsing.Proofs.Recognition.Spans
import AdaptiveParsing.Proofs.Network.Tails
import AdaptiveParsing.Proofs.Network.LeftRecursion
import AdaptiveParsing.Proofs.Network.Expected
import AdaptiveParsing.Proofs.Lookahead.Dominance
import AdaptiveParsing.Proofs.Recognition.Resuming
import AdaptiveParsing.Proofs.Recognition.Boundaries
import AdaptiveParsing.Proofs.Recognition.Sessions
import AdaptiveParsing.Proofs.Recognition.InPlace
import AdaptiveParsing.Proofs.Recognition.CursorLaws
import AdaptiveParsing.Proofs.Lookahead.StoreLaws
import AdaptiveParsing.Proofs.Recognition.Readings
import AdaptiveParsing.Proofs.Recognition.Returning
import AdaptiveParsing.Proofs.Diagnostic.History
import AdaptiveParsing.Proofs.Lookahead.Changes
import AdaptiveParsing.Proofs.Token.Recipes
import AdaptiveParsing.Proofs.Lookahead.Depth
import AdaptiveParsing.Proofs.Lookahead.Acceptance
import AdaptiveParsing.Proofs.Lookahead.Searching
import AdaptiveParsing.Proofs.Recognition.Whereabouts
import AdaptiveParsing.Proofs.Recognition.Expecting
import AdaptiveParsing.Proofs.Network.Idling
import AdaptiveParsing.Proofs.Recognition.Effort
import AdaptiveParsing.Proofs.Recognition.Terminating
import AdaptiveParsing.Proofs.Recognition.Choosing
