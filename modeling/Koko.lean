import Koko.Lib.Bytes
import Koko.Lib.InputStream
import Koko.Lib.BestMatch
import Koko.Lib.Strings
import Koko.Lib.LexicalPath
import Koko.Lib.ReplaceAll
import Koko.Lib.Path
import Koko.Lib.Occurrences
import Koko.Lib.Interleaving
import Koko.Lib.WhileLoop
import Koko.Lib.ReadAccount
import Koko.Lib.Ancestors
import Koko.Lib.Lockstep
import Koko.Lib.Delimited
import Koko.Config.LookupSafety
import Koko.Config.Rejection
import Koko.Config.TrailingWord
import Koko.Config.Scanner
import Koko.Config.WordTokens
import Koko.Config.QuoteSymmetry
import Koko.Config.Layout
import Koko.Config.LineEndings
import Koko.Config.Writer
import Koko.Config.SpelledValues
import Koko.Config.LexerProgress
import Koko.Config.StackInvariant
import Koko.Config.Concatenation
import Koko.Config.ParserRange
import Koko.Handlers.Framing
import Koko.Handlers.LinkInsertion
import Koko.Handlers.ProxyFailures
import Koko.Handlers.AcceptEncoding
import Koko.Handlers.StatusMarkup
import Koko.Handlers.StatusSnapshot
import Koko.Handlers.NestedProxies
import Koko.Server.RegistrationSafety
import Koko.Server.Listening
import Koko.Server.Ports
import Koko.Server.DirectiveOrder
import Koko.Session.Query
import Koko.Session.RequestLog
import Koko.Session.PrefixRemoval
import Koko.Session.ProxyRedirects
import Koko.Session.TrailingSlashes
import Koko.Session.LongestPrefix
import Koko.Session.MetricsLabel
import Koko.Session.RoutingReads
import Koko.Session.Guarantees
import Koko.Session.Shutdown
import Koko.Session.Compression
import Koko.Session.StatusReading
import Koko.Session.Site
import Koko.Server.System
import Koko.Server.Linearization
import Koko.Server.Lifetime
import Koko.Server.Process
import Koko.Server.UnreadStatements
import Koko.Server.SiteServer
import Koko.Server.Exceptions
import Koko.Server.KeepAlive
import Koko.Server.StatementOrder
import Koko.Server.Progress
